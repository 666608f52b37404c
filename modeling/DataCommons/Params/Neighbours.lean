import Mathlib.Algebra.Order.BigOperators.Group.List
import DataCommons.Params.Memory

/-!
# The variables beside the one that a line sets

The frame of a line where the variables stand in one memory: a value that is longer than
its variable runs on into what stands behind it.  The pointers of a list of strings that
point to a buffer point to one apart from the variables.

* `fileStores_values`: the stores of a file are those of a list of values;
* `putAll_keeps`: values that stay inside their variables keep those of other names;
* `putAll_struck`: one that does not sets the byte behind its variable;
* `line_keeps_others_iff`: a line changes the parameters of its key only, in every state
  and wherever the variables are, exactly when the others refuse what it hands to them
  and, if one of them has a byte, every value stays inside its variable.
-/

namespace DataCommons.Params

open CString

variable {F : Type}

/-! ## The property -/

/-- The pointers of the lists of strings that point to a buffer point to eight bytes that
belong to no variable. -/
def Buffered (ps : List (Placed F)) (m : Mem) : Prop :=
  ∀ p ∈ ps, ∀ items bufs, p.var = .list (.str items bufs) → ∀ i < listCap, bufs i = true →
    ∀ j < wordSize, Outside ps (m.load8 (p.ref + wordSize * i) + j)

/-- The variables of the parameters whose name is not `k` are as before. -/
def KeptBytes (k : Str) (ps : List (Placed F)) (m m' : Mem) : Prop :=
  ∀ q ∈ ps, q.name ≠ k → ∀ x, q.extent.Has x → m' x = m x

/-- Wherever the variables are, apart from each other, and whatever they hold, the call is
defined and leaves the variables of the parameters whose name is not `k`. -/
def KeepsBytes (env : Env F) (t : Target F) (params : List (Param F)) (filename text k : Str) :
    Prop :=
  ∀ ps : List (Placed F), ps.map Placed.toParam = params →
    (ps.Pairwise fun p q => p.extent.Apart q.extent) → ∀ m, Buffered ps m →
      ∃ m', paramParseMem env t ps filename text m = some m' ∧ KeptBytes k ps m m'

/-- A value that is stored inside its variable, by a list of strings inside its buffers, or
not at all. -/
def Stays (v : Var F) (valStart : Str) : Prop := v.holdsStrings = true ∨ Fits v valStart

/-- The value that the parameter finds in the line, if any, stays. -/
def ValueStays (r : Param F × Str) : Prop :=
  match scanParam r.1 r.2 with
  | .value valStart _ => Stays r.1.var valStart
  | _ => True

/-- Every value that the call comes to stays. -/
def AllStay (env : Env F) (ps : List (Param F)) (lines : List Str) : Prop :=
  ∀ line ∈ scannedLines env ps lines, ∀ r ∈ reached env ps line, ValueStays r

instance (v : Var F) (valStart : Str) : Decidable (Fits v valStart) :=
  match v with
  | .bool _ | .int _ | .float _ => inferInstanceAs (Decidable True)
  | .uint _ => inferInstanceAs (Decidable (_ ≠ _))
  | .str _ => inferInstanceAs (Decidable (_ < _))
  | .list _ => inferInstanceAs (Decidable (_ → _))
  | .binary _ => inferInstanceAs (Decidable (_ ∨ _))

instance (v : Var F) (valStart : Str) : Decidable (Stays v valStart) :=
  inferInstanceAs (Decidable (_ ∨ _))

instance (r : Param F × Str) : Decidable (ValueStays r) :=
  match h : scanParam r.1 r.2 with
  | .value valStart _ => decidable_of_iff (Stays r.1.var valStart) (by rw [ValueStays, h])
  | .miss | .stop | .undefined => isTrue (by rw [ValueStays, h]; trivial)

instance (env : Env F) (ps : List (Param F)) (lines : List Str) :
    Decidable (AllStay env ps lines) :=
  inferInstanceAs (Decidable (∀ line ∈ _, ∀ r ∈ _, _))

/-! ## The values of a file -/

/-- The values that a line gives, in order. -/
def lineValues (env : Env F) : List (Placed F) → Str → List (Placed F × Str)
  | [], _ => []
  | p :: ps, line =>
    match scanParam p.toParam line with
    | .miss => lineValues env ps line
    | .value valStart line =>
      (p, valStart) :: if rejects env p.var valStart then [] else lineValues env ps line
    | _ => []

def fileValues (env : Env F) (ps : List (Placed F)) (lines : List Str) : List (Placed F × Str) :=
  (scannedLines env (ps.map Placed.toParam) lines).flatMap (lineValues env ps)

def put (env : Env F) (t : Target F) (m : Mem) (w : Placed F × Str) : Option Mem :=
  storeVar env t w.1.var w.1.ref w.2 m

section Values

variable {env : Env F} {t : Target F}

theorem lineStores_values {ps : List (Placed F)} {line : Str}
    (h : ∀ r ∈ reached env (ps.map Placed.toParam) line, scanParam r.1 r.2 ≠ .undefined) (m : Mem) :
    lineStores env t ps line m = ((lineValues env ps line).foldlM (put env t) m).map
      fun n => (n, goesOn env (ps.map Placed.toParam) line) := by
  induction ps generalizing line m with
  | nil => rfl
  | cons p ps ih =>
    rw [List.map_cons, reached, List.forall_mem_cons] at h
    obtain ⟨hdef, hrest⟩ := h
    rw [lineStores, lineValues, List.map_cons, goesOn]
    cases hscan : scanParam p.toParam line with
    | miss =>
      simp only [hscan] at hrest
      exact ih hrest m
    | stop => rfl
    | undefined => exact absurd hscan hdef
    | value valStart l =>
      simp only [hscan] at hrest
      dsimp only
      rw [List.foldlM_cons, put]
      dsimp only
      cases hput : storeVar env t p.var p.ref valStart m with
      | none => rfl
      | some n =>
        cases hrej : rejects env p.var valStart with
        | true => rfl
        | false =>
          simp only [hrej, Bool.false_eq_true, if_false] at hrest
          have hih := ih hrest n
          simpa using hih

/-- **The stores of a file** are those of its values. -/
theorem fileStores_values {ps : List (Placed F)} {lines : List Str}
    (h : ∀ line ∈ scannedLines env (ps.map Placed.toParam) lines,
      ∀ r ∈ reached env (ps.map Placed.toParam) line, scanParam r.1 r.2 ≠ .undefined) (m : Mem) :
    fileStores env t ps lines m = (fileValues env ps lines).foldlM (put env t) m := by
  induction lines generalizing m with
  | nil => rfl
  | cons line lines ih =>
    rw [scannedLines] at h
    rw [fileStores, fileValues, scannedLines]
    by_cases hskip : skipped line = true
    · rw [if_pos hskip] at h
      rw [if_pos hskip, if_pos hskip]
      exact ih h m
    · rw [if_neg hskip, List.forall_mem_cons] at h
      rw [if_neg hskip, if_neg hskip, lineStores_values h.1, List.flatMap_cons, List.foldlM_append]
      cases hfold : (lineValues env ps line).foldlM (put env t) m with
      | none => rfl
      | some n =>
        cases hgo : goesOn env (ps.map Placed.toParam) line with
        | true =>
          rw [hgo] at h
          exact ih h.2 n
        | false => rfl

theorem mem_lineValues {ps : List (Placed F)} {line : Str} {w : Placed F × Str}
    (h : w ∈ lineValues env ps line) : w.1 ∈ ps ∧
      ∃ l l', (w.1.toParam, l) ∈ reached env (ps.map Placed.toParam) line ∧
        scanParam w.1.toParam l = .value w.2 l' := by
  induction ps generalizing line with
  | nil => cases h
  | cons p ps ih =>
    rw [lineValues] at h
    rw [List.map_cons, reached]
    cases hscan : scanParam p.toParam line with
    | miss =>
      simp only [hscan] at h ⊢
      obtain ⟨hmem, l, l', hr, hval⟩ := ih h
      exact ⟨List.mem_cons_of_mem p hmem, l, l', List.mem_cons_of_mem _ hr, hval⟩
    | stop => simp [hscan] at h
    | undefined => simp [hscan] at h
    | value valStart l =>
      simp only [hscan, List.mem_cons] at h ⊢
      rcases h with rfl | h
      · exact ⟨Or.inl rfl, line, l, Or.inl rfl, hscan⟩
      · split at h
        · cases h
        · rename_i hrej
          obtain ⟨hmem, l₁, l', hr, hval⟩ := ih h
          refine ⟨Or.inr hmem, l₁, l', Or.inr ?_, hval⟩
          rwa [if_neg hrej]

/-- A value of the parameters is one of the variables, wherever they are. -/
theorem lineValues_of_reached {params : List (Param F)} {line : Str} {r : Param F × Str}
    (hr : r ∈ reached env params line) {valStart l : Str} (hval : scanParam r.1 r.2 = .value valStart l) :
    ∃ i : ℕ, params[i]? = some r.1 ∧ ∀ ps : List (Placed F), ps.map Placed.toParam = params →
      ∀ p, ps[i]? = some p → (p, valStart) ∈ lineValues env ps line := by
  induction params generalizing line with
  | nil => cases hr
  | cons a params ih =>
    rw [reached, List.mem_cons] at hr
    rcases hr with rfl | hr
    · refine ⟨0, rfl, fun ps hps p hp => ?_⟩
      obtain ⟨p, ps, rfl, rfl, rfl⟩ := List.map_eq_cons_iff.mp hps
      cases hp
      dsimp only at hval
      simp [lineValues, hval]
    · have hrest : ∃ l', r ∈ reached env params l' ∧ ∀ ps : List (Placed F), ∀ p : Placed F,
          p.toParam = a → ∀ w, w ∈ lineValues env ps l' → w ∈ lineValues env (p :: ps) line := by
        cases hscan : scanParam a line with
        | miss =>
          simp only [hscan] at hr
          refine ⟨line, hr, fun ps p hp w hw => ?_⟩
          subst hp
          simpa [lineValues, hscan] using hw
        | stop => simp [hscan] at hr
        | undefined => simp [hscan] at hr
        | value v l' =>
          simp only [hscan] at hr
          split at hr
          · cases hr
          · rename_i hrej
            refine ⟨l', hr, fun ps p hp w hw => ?_⟩
            subst hp
            simp only [lineValues, hscan, if_neg hrej]
            exact List.mem_cons_of_mem _ hw
      obtain ⟨l', hr', hlift⟩ := hrest
      obtain ⟨i, hi, hmem⟩ := ih hr'
      refine ⟨i + 1, hi, fun ps hps p hp => ?_⟩
      obtain ⟨b, ps, rfl, hb, hps'⟩ := List.map_eq_cons_iff.mp hps
      exact hlift ps b hb _ (hmem ps hps' p hp)

end Values

/-! ## What the others refuse -/

/-- The value goes to a parameter of name `k` or is not taken, and its `switch` is
defined. -/
structure Handed (env : Env F) (k : Str) (p : Param F) (valStart : Str) : Prop where
  defined : (assignVar env p.var valStart).2.1 ≠ .undefined
  key : p.name = k ∨ takes env p.var.type valStart = false

section Refused

variable {env : Env F} {t : Target F} {k : Str}

theorem othersRefuse_reached {next : Bool} {ps : List (Param F)} {line : Str}
    (h : othersRefuse env k next ps line = true) :
    (∀ r ∈ reached env ps line, scanParam r.1 r.2 ≠ .undefined ∧
      ∀ valStart l, scanParam r.1 r.2 = .value valStart l → Handed env k r.1 valStart) ∧
      (goesOn env ps line = true → next = true) := by
  induction ps generalizing line with
  | nil => exact ⟨by simp [reached], fun _ => h⟩
  | cons p ps ih =>
    rw [othersRefuse] at h
    rw [reached, goesOn, List.forall_mem_cons]
    cases hscan : scanParam p line with
    | miss =>
      simp only [hscan] at h
      obtain ⟨hrest, hgo⟩ := ih h
      exact ⟨⟨⟨by simp, by simp⟩, hrest⟩, hgo⟩
    | stop =>
      simp only [hscan] at h
      exact ⟨⟨⟨by simp, by simp⟩, by simp⟩, fun _ => h⟩
    | undefined =>
      simp only [hscan] at h
      cases h
    | value valStart l =>
      simp only [hscan, Bool.and_eq_true, Bool.or_eq_true, decide_eq_true_eq, Bool.not_eq_true',
        assign] at h
      obtain ⟨hkey, hend⟩ := h
      have hhanded (hdef : (assignVar env p.var valStart).2.1 ≠ .undefined) : ∀ v l',
          Scan.value valStart l = .value v l' → Handed env k p v := by
        intro v l' he
        cases he
        exact ⟨hdef, hkey⟩
      cases hres : (assignVar env p.var valStart).2.1 with
      | done =>
        rw [hres] at hend hhanded
        have hrej : rejects env p.var valStart = false := by rw [rejects, hres]
        obtain ⟨hrest, hgo⟩ := ih hend
        exact ⟨⟨⟨by simp, hhanded (by simp)⟩, by simpa [hrej] using hrest⟩, by simpa [hrej] using hgo⟩
      | reject err =>
        rw [hres] at hhanded
        have hrej : rejects env p.var valStart = true := by rw [rejects, hres]
        exact ⟨⟨⟨by simp, hhanded (by simp)⟩, by simp [hrej]⟩, by simp [hrej]⟩
      | undefined =>
        rw [hres] at hend
        cases hend

theorem allRefuse_reached {ps : List (Param F)} {lines : List Str}
    (h : allRefuse env k ps lines = true) :
    ∀ line ∈ scannedLines env ps lines, ∀ r ∈ reached env ps line,
      scanParam r.1 r.2 ≠ .undefined ∧
        ∀ valStart l, scanParam r.1 r.2 = .value valStart l → Handed env k r.1 valStart := by
  induction lines with
  | nil => simp [scannedLines]
  | cons line lines ih =>
    rw [allRefuse] at h
    rw [scannedLines]
    split at h
    · rename_i hskip
      rw [if_pos hskip]
      exact ih h
    · rename_i hskip
      rw [if_neg hskip, List.forall_mem_cons]
      obtain ⟨hline, hnext⟩ := othersRefuse_reached h
      refine ⟨hline, ?_⟩
      split
      · rename_i hgo
        exact ih (hnext hgo)
      · simp

theorem stays_of_refused {v : Var F} {valStart : Str} (h : takes env v.type valStart = false) :
    Stays v valStart := by
  cases v with
  | bool b | float x => exact Or.inr trivial
  | uint n => exact Or.inr (of_decide_eq_false h)
  | int i | str s => cases h
  | list l =>
    cases hl : l.holdsStrings with
    | true => exact Or.inl hl
    | false => exact Or.inr fun hstr => absurd hstr (by simp [hl])
  | binary bytes => exact Or.inr (Or.inl (by simpa [Var.type, takes] using h))

/-- A first item that is not taken is not stored. -/
theorem storeItem_refused {l : ListVar F} {token : Str} (h : takesItem env l.type token = false)
    (hstr : l.holdsStrings = false) (item : ℕ) (m : Mem) :
    storeItem env t l item token m = none := by
  cases l with
  | bool items | uint items | int items | float items =>
    simp only [storeItem]
    split
    · rename_i heq
      simp [ListVar.type, takesItem, heq, Item.isOk] at h
    · rfl
  | str items bufs => cases hstr
  | other n => rfl

/-- Without a buffer the first item of a list of strings is undefined. -/
theorem strings_refused {l : ListVar F} {token : Str} (h : takesItem env l.type token = false)
    (hstr : l.holdsStrings = true) (tokens : List Str) :
    (tokenLoop env l (token :: tokens)).2 = none := by
  cases l with
  | str items bufs =>
    have hbuf : bufs 0 = false := by
      simp only [ListVar.type, takesItem, strItem] at h
      split at h
      · cases h
      · rename_i hb
        exact Bool.eq_false_iff.mpr hb
    simp [tokenLoop, storeItems, takeItems, strItem, hbuf, listCap]
  | _ => cases hstr

/-- **A value that is not taken is not stored.** -/
theorem storeVar_refused {v : Var F} {valStart : Str} (h : takes env v.type valStart = false)
    (hdef : (assignVar env v valStart).2.1 ≠ .undefined) (ref : ℕ) (m : Mem) :
    storeVar env t v ref valStart m = some m := by
  cases v with
  | bool b =>
    have hw : boolWord valStart = none := by simpa [Var.type, takes] using h
    rw [storeVar, hw]
  | uint n =>
    have hw : (strtoull valStart).rest ≠ [] := by simpa [Var.type, takes] using h
    exact if_pos hw
  | int i => cases h
  | float x =>
    have hw : (env.strtof valStart).rest ≠ [] := by simpa [Var.type, takes] using h
    exact if_pos hw
  | str s => cases h
  | list l =>
    rw [storeVar, listTokens]
    simp only [Var.type, takes, takesList] at h
    by_cases hhead : valStart.head? = some '['
    · rw [if_pos hhead]
      simp only [hhead, decide_true, Bool.true_and] at h
      split at h
      · cases h
      · rename_i token tokens htok
        rw [htok, storeTokens, if_neg (by decide)]
        cases hstr : l.holdsStrings with
        | false => rw [storeItem_refused h hstr]
        | true =>
          have hnone := strings_refused h hstr tokens
          simp only [assignVar, parseListParam, if_pos hhead, htok] at hdef
          generalize tokenLoop env l (token :: tokens) = r at hnone hdef
          obtain ⟨l', ret⟩ := r
          subst hnone
          exact absurd rfl hdef
    · rw [if_neg hhead, storeTokens]
  | binary bytes =>
    have hw : (binDigits valStart).length / 2 > maxBin := by simpa [Var.type, takes] using h
    exact if_pos hw

end Refused

/-! ## Enough -/

/-- Where a value that stays is stored: for a list of strings, besides its buffers, in
`count` only. -/
def Placed.stored (p : Placed F) : Extent :=
  if p.var.holdsStrings then ⟨p.ref + countOffset, wordSize⟩ else p.extent

section Keeps

variable {env : Env F} {t : Target F} {k : Str} {all : List (Placed F)}

theorem stored_subset {p : Placed F} {x : ℕ} (h : p.stored.Has x) : p.extent.Has x := by
  rw [Placed.stored] at h
  split at h
  · rename_i hstr
    cases hv : p.var with
    | list l =>
      simp only [Placed.extent, hv, Var.size, Extent.Has] at h ⊢
      omega
    | _ => simp [hv, Var.holdsStrings] at hstr
  · exact h

/-- The bytes of a pointer of a list of strings. -/
theorem cell_inside {p : Placed F} {items : List Str} {bufs : ℕ → Bool}
    (hv : p.var = .list (.str items bufs)) {i j : ℕ} (hi : i < listCap) (hj : j < wordSize) :
    p.extent.Has (p.ref + wordSize * i + j) := by
  simp only [Placed.extent, hv, Var.size, Extent.Has, listCap, countOffset, wordSize] at hi hj ⊢
  omega

theorem cell_not_own {p : Placed F} {items : List Str} {bufs : ℕ → Bool}
    (hv : p.var = .list (.str items bufs)) {i j : ℕ} (hi : i < listCap) (hj : j < wordSize) :
    ¬ p.stored.Has (p.ref + wordSize * i + j) := by
  have hstr : p.var.holdsStrings = true := by rw [hv]; rfl
  rw [Placed.stored, if_pos hstr]
  simp only [Extent.Has, listCap, countOffset, wordSize] at hi hj ⊢
  omega

theorem cell_not_stored (hapart : all.Pairwise fun p q => p.extent.Apart q.extent)
    {p q : Placed F} (hp : p ∈ all) (hq : q ∈ all) {items : List Str} {bufs : ℕ → Bool}
    (hv : q.var = .list (.str items bufs)) {i j : ℕ} (hi : i < listCap) (hj : j < wordSize) :
    ¬ p.stored.Has (q.ref + wordSize * i + j) := by
  by_cases hpq : p = q
  · subst hpq
    exact cell_not_own hv hi hj
  · exact fun h => Extent.apart_of_pairwise hapart hp hq hpq _ (stored_subset h) (cell_inside hv hi hj)

/-- What changes a byte of the variables only where `p` stores keeps the pointers. -/
theorem Buffered.of_stored (hapart : all.Pairwise fun p q => p.extent.Apart q.extent)
    {p : Placed F} (hp : p ∈ all) {m m' : Mem} (hm : Buffered all m)
    (h : ∀ x, ¬ Outside all x → ¬ p.stored.Has x → m' x = m x) : Buffered all m' := by
  intro q hq items bufs hv i hi hbuf j hj
  have hcell : m'.load8 (q.ref + wordSize * i) = m.load8 (q.ref + wordSize * i) :=
    Mem.load8_congr fun l hl => h _ (fun hout => hout q hq (cell_inside hv hi hl))
      (cell_not_stored hapart hp hq hv hi hl)
  rw [hcell]
  exact hm q hq items bufs hv i hi hbuf j hj

/-- A store into a buffer changes no byte of a variable. -/
theorem store_in_buffer {m : Mem} {a : ℕ} {bytes : List UInt8}
    (hout : ∀ i < bytes.length, Outside all (a + i)) {y : ℕ} (hy : ¬ Outside all y) :
    m.store a bytes y = m y := by
  refine Mem.store_outside ?_
  by_contra hin
  simp only [not_or, not_lt, not_le] at hin
  refine hy ?_
  have := hout (y - a) (by omega)
  rwa [Nat.add_sub_cancel' hin.1] at this

theorem storeItem_string (env : Env F) (t : Target F) {p : Placed F} (hp : p ∈ all)
    {items : List Str} {bufs : ℕ → Bool} (hv : p.var = .list (.str items bufs)) {idx : ℕ}
    (hidx : idx < listCap) {m : Mem}
    (hout : ∀ j < wordSize, Outside all (m.load8 (p.ref + wordSize * idx) + j)) (token : Str) :
    ∃ m', storeItem env t (.str items bufs) (p.ref + wordSize * idx) token m = some m' ∧
      ∀ y, ¬ Outside all y → m' y = m y := by
  have hchars : ∀ y, ¬ Outside all y → m.store (m.load8 (p.ref + wordSize * idx))
      (strncpyBytes (wordSize - 1) token) y = m y := by
    refine fun y hy => store_in_buffer (fun i hi => hout i ?_) hy
    rw [strncpyBytes_length] at hi
    exact Nat.lt_of_lt_of_le hi (by decide)
  simp only [storeItem]
  -- the pointer is a byte of the variable, so the second store finds it as the first did
  rw [Mem.load8_congr fun l hl => hchars _ fun h => h p hp (cell_inside hv hidx hl)]
  refine ⟨_, rfl, fun y hy => ?_⟩
  have hlast : ∀ i < [(0 : UInt8)].length,
      Outside all (m.load8 (p.ref + wordSize * idx) + (wordSize - 1) + i) := by
    intro i hi
    rw [Nat.lt_one_iff.mp hi, Nat.add_zero]
    exact hout (wordSize - 1) (by decide)
  rw [store_in_buffer hlast hy, hchars y hy]

/-- The tokens of a list of strings go to the buffers, and their number to `count`. -/
theorem storeTokens_strings {p : Placed F} (hp : p ∈ all) {items : List Str} {bufs : ℕ → Bool}
    (hv : p.var = .list (.str items bufs)) {idx : ℕ} {tokens : List Str}
    (hdef : (takeItems (strItem bufs) idx tokens).2 ≠ none) {m : Mem}
    (hm : ∀ i < listCap, bufs i = true → ∀ j < wordSize,
      Outside all (m.load8 (p.ref + wordSize * i) + j)) {x : ℕ} (hx : ¬ Outside all x)
    (hstored : ¬ p.stored.Has x) :
    storeTokens env t (.str items bufs) p.ref idx tokens m x = m x := by
  have hcount : p.stored = ⟨p.ref + countOffset, wordSize⟩ := by
    rw [Placed.stored, hv]
    exact if_pos rfl
  induction tokens generalizing idx m with
  | nil => rfl
  | cons token tokens ih =>
    rw [takeItems] at hdef
    rw [storeTokens]
    by_cases hidx : idx ≥ listCap
    · rw [if_pos hidx]
    · rw [if_neg hidx] at hdef ⊢
      have hbuf : bufs idx = true := by
        rw [strItem] at hdef
        by_contra hb
        rw [if_neg hb] at hdef
        exact hdef rfl
      rw [strItem, if_pos hbuf] at hdef
      obtain ⟨m', hm', hkept⟩ :=
        storeItem_string env t hp hv (not_le.mp hidx) (hm idx (not_le.mp hidx) hbuf) token
      have hrest : ∀ y, ¬ Outside all y → ¬ p.stored.Has y →
          m'.store (p.ref + countOffset) (bytesOf wordSize (idx + 1)) y = m y := by
        intro y hy hys
        rw [hcount] at hys
        simp only [Extent.Has] at hys
        rw [Mem.store_outside (by rw [bytesOf_length]; omega), hkept y hy]
      rw [hm']
      dsimp only
      rw [ih (fun hn => hdef (by simp [hn])) fun i hi hb j hj => ?_]
      · exact hrest x hx hstored
      · rw [Mem.load8_congr fun l hl => hrest _ (fun h => h p hp (cell_inside hv hi hl))
          (cell_not_own hv hi hl)]
        exact hm i hi hb j hj

/-- **A value that stays** is stored where its variable stores. -/
theorem put_stored {p : Placed F} (hp : p ∈ all) {valStart : Str} (hstays : Stays p.var valStart)
    (hdef : (assignVar env p.var valStart).2.1 ≠ .undefined) {m : Mem} (hm : Buffered all m) :
    ∃ m', put env t m (p, valStart) = some m' ∧
      ∀ x, ¬ Outside all x → ¬ p.stored.Has x → m' x = m x := by
  cases hstr : p.var.holdsStrings with
  | false =>
    have hfits := hstays.resolve_left (by simp [hstr])
    obtain ⟨m', hm', hch⟩ :=
      storeVar_changesOnly env t (switchEnds_of_assignVar hdef) hfits p.ref m
    refine ⟨m', hm', fun x _ hx => hch x ?_⟩
    rwa [Placed.stored, if_neg (by simp [hstr])] at hx
  | true =>
    cases hv : p.var with
    | list l =>
      cases l with
      | str items bufs =>
        refine ⟨_, by rw [put, hv]; rfl, fun x hx hs => ?_⟩
        refine storeTokens_strings hp hv (fun hnone => hdef ?_) (hm p hp items bufs hv) hx hs
        rw [listTokens] at hnone
        split at hnone
        · rename_i hhead
          dsimp only at hhead hnone
          simp only [hv, assignVar, parseListParam, if_pos hhead, tokenLoop, storeItems, hnone]
        · cases hnone
      | _ => simp [hv, Var.holdsStrings, ListVar.holdsStrings] at hstr
    | _ => simp [hv, Var.holdsStrings] at hstr

/-- **One value** that is handed on and stays keeps the variables of other names and the
pointers. -/
theorem put_keeps (hapart : all.Pairwise fun p q => p.extent.Apart q.extent) {p : Placed F}
    (hp : p ∈ all) {valStart : Str} (hstays : Stays p.var valStart)
    (handed : Handed env k p.toParam valStart) {m : Mem} (hm : Buffered all m) :
    ∃ m', put env t m (p, valStart) = some m' ∧ Buffered all m' ∧ KeptBytes k all m m' := by
  rcases handed.key with hname | hrefused
  · obtain ⟨m', hm', hch⟩ := put_stored (t := t) hp hstays handed.defined hm
    refine ⟨m', hm', hm.of_stored hapart hp hch, fun q hq hne x hx => ?_⟩
    have hpq : p ≠ q := fun h => hne (h ▸ hname)
    refine hch x (fun hout => hout q hq hx) fun hs => ?_
    exact Extent.apart_of_pairwise hapart hp hq hpq x (stored_subset hs) hx
  · exact ⟨m, storeVar_refused hrefused handed.defined p.ref m, hm, fun _ _ _ _ _ => rfl⟩

/-- **Values that stay** leave the variables of other names. -/
theorem putAll_keeps (hapart : all.Pairwise fun p q => p.extent.Apart q.extent)
    {ws : List (Placed F × Str)} (h : ∀ w ∈ ws, w.1 ∈ all ∧ Stays w.1.var w.2 ∧
      Handed env k w.1.toParam w.2) {m : Mem} (hm : Buffered all m) :
    ∃ m', ws.foldlM (put env t) m = some m' ∧ KeptBytes k all m m' := by
  induction ws generalizing m with
  | nil => exact ⟨m, rfl, fun _ _ _ _ _ => rfl⟩
  | cons w ws ih =>
    rw [List.forall_mem_cons] at h
    obtain ⟨⟨hp, hstays, handed⟩, hrest⟩ := h
    obtain ⟨m₁, hm₁, hbuf, hkept⟩ := put_keeps (t := t) hapart hp hstays handed hm
    obtain ⟨m', hm', hkept'⟩ := ih hrest hbuf
    refine ⟨m', ?_, fun q hq hne x hx => ?_⟩
    · rw [List.foldlM_cons, hm₁]
      exact hm'
    · rw [hkept' q hq hne x hx, hkept q hq hne x hx]

theorem putAll_defined {ws : List (Placed F × Str)}
    (h : ∀ w ∈ ws, Handed env k w.1.toParam w.2) (m : Mem) :
    ∃ m', ws.foldlM (put env t) m = some m' := by
  induction ws generalizing m with
  | nil => exact ⟨m, rfl⟩
  | cons w ws ih =>
    rw [List.forall_mem_cons] at h
    have hsome : ∃ m₁, put env t m w = some m₁ := by
      cases storeVar_switch env t w.1.var w.2 with
      | nothing _ _ hput => exact ⟨_, hput w.1.ref m⟩
      | bytes out _ _ hput => exact ⟨_, hput w.1.ref m⟩
      | list l hv => exact ⟨_, by rw [put, hv]; rfl⟩
      | endless hnot _ => exact absurd (switchEnds_of_assignVar h.1.defined) hnot
    obtain ⟨m₁, hm₁⟩ := hsome
    rw [List.foldlM_cons, hm₁]
    exact ih h.2 m₁

end Keeps

/-! ## Needed -/

/-- Two memories that differ at one address at most. -/
def SameBut (x₀ : ℕ) (m₁ m₂ : Mem) : Prop := ∀ x, x ≠ x₀ → m₁ x = m₂ x

section Struck

variable {env : Env F} {t : Target F} {k : Str} {x₀ : ℕ}

theorem SameBut.put {p : Placed F} {valStart : Str} (handed : Handed env k p.toParam valStart)
    (hkey : p.name = k → ¬ p.extent.Has x₀) {m₁ m₂ n₁ n₂ : Mem} (hsame : SameBut x₀ m₁ m₂)
    (h₁ : put env t m₁ (p, valStart) = some n₁) (h₂ : put env t m₂ (p, valStart) = some n₂) :
    SameBut x₀ n₁ n₂ := by
  rcases handed.key with hname | hrefused
  · refine fun x hx => storeVar_agree (fun y hy => hsame y ?_) h₁ h₂ (hsame x hx)
    rintro rfl
    exact hkey hname hy
  · cases h₁.symm.trans (storeVar_refused hrefused handed.defined p.ref m₁)
    cases h₂.symm.trans (storeVar_refused hrefused handed.defined p.ref m₂)
    exact hsame

/-- **A value that does not stay** sets the byte behind its variable, and with it the two
memories become one. -/
theorem putAll_struck {ws : List (Placed F × Str)}
    (h : ∀ w ∈ ws, Handed env k w.1.toParam w.2 ∧ (w.1.name = k → ¬ w.1.extent.Has x₀))
    {p : Placed F} {valStart : Str} (hmem : (p, valStart) ∈ ws) (hout : ¬ Stays p.var valStart)
    (hx₀ : p.ref + p.var.size = x₀) {m₁ m₂ n₁ n₂ : Mem} (hsame : SameBut x₀ m₁ m₂)
    (h₁ : ws.foldlM (put env t) m₁ = some n₁) (h₂ : ws.foldlM (put env t) m₂ = some n₂) :
    n₁ = n₂ := by
  induction ws generalizing m₁ m₂ with
  | nil => cases hmem
  | cons w ws ih =>
    rw [List.forall_mem_cons] at h
    obtain ⟨⟨handed, hkey⟩, hrest⟩ := h
    rw [List.foldlM_cons] at h₁ h₂
    obtain ⟨k₁, hk₁, hr₁⟩ := Option.bind_eq_some_iff.mp h₁
    obtain ⟨k₂, hk₂, hr₂⟩ := Option.bind_eq_some_iff.mp h₂
    have hsame' : SameBut x₀ k₁ k₂ := hsame.put handed hkey hk₁ hk₂
    rcases List.mem_cons.mp hmem with rfl | hmem
    · obtain ⟨hstr, hfits⟩ := not_or.mp hout
      have hname : p.name = k :=
        handed.key.resolve_right fun hrefused => hout (stays_of_refused hrefused)
      have hset : k₁ x₀ = k₂ x₀ := by
        have hin : ∀ y, (Extent.mk p.ref p.var.size).Has y → m₁ y = m₂ y := by
          refine fun y hy => hsame y ?_
          rintro rfl
          exact hkey hname hy
        have hhit := (storeVar_hit hfits hin hk₁ hk₂).resolve_right fun h => hstr h.1
        rwa [hx₀] at hhit
      have heq : k₁ = k₂ := by
        funext y
        by_cases hy : y = x₀
        · rw [hy, hset]
        · exact hsame' y hy
      subst heq
      exact Option.some.inj (hr₁.symm.trans hr₂)
    · exact ih hrest hmem hsame' hr₁ hr₂

end Struck

/-! ## One variable directly behind another -/

/-- The parameters with the variable of the `j`th directly behind the one of the `i`th, above
all that pointers of bytes up to `2` point to. -/
def besideEachOther (params : List (Param F)) (i j : ℕ) : List (Placed F) :=
  (layoutBehind (fun p : Param F => p.var.size) (2 * spare + 8)
    (2 * (params.map fun p => p.var.size).sum) i j params).map fun a => ⟨a.1, a.2⟩

theorem besideEachOther_toParam (params : List (Param F)) (i j : ℕ) :
    (besideEachOther params i j).map Placed.toParam = params := by
  rw [besideEachOther, List.map_map]
  exact layoutBehind_map_fst _ _ i j params

theorem besideEachOther_apart {params : List (Param F)} {i j : ℕ} (hi : i < params.length)
    (hij : i ≠ j) :
    (besideEachOther params i j).Pairwise fun p q => p.extent.Apart q.extent := by
  rw [besideEachOther, List.pairwise_map]
  exact @layoutBehind_apart _ (fun p : Param F => p.var.size) _ _ _ _ _
    (fun a ha => List.le_sum_of_mem (List.mem_map_of_mem ha)) hi hij

theorem besideEachOther_neighbours {params : List (Param F)} {i j : ℕ} (hij : i ≠ j)
    {a b : Param F} (ha : params[i]? = some a) (hb : params[j]? = some b) :
    ∃ p q, (besideEachOther params i j)[i]? = some p ∧ p.toParam = a ∧
      (besideEachOther params i j)[j]? = some q ∧ q.toParam = b ∧ q.ref = p.ref + p.var.size := by
  obtain ⟨addr, hp, hq⟩ := @layoutBehind_neighbours _ (fun p : Param F => p.var.size)
    (2 * spare + 8) (2 * (params.map fun p => p.var.size).sum) i j hij _ _ _ ha hb
  refine ⟨⟨a, addr⟩, ⟨b, addr + a.var.size⟩, ?_, rfl, ?_, rfl, rfl⟩
  · rw [besideEachOther, List.getElem?_map, hp, Option.map_some]
  · rw [besideEachOther, List.getElem?_map, hq, Option.map_some]

theorem besideEachOther_buffered (params : List (Param F)) (i j : ℕ) {m : Mem}
    (hm : ∀ x, (m x).toNat ≤ 2) : Buffered (besideEachOther params i j) m := by
  rintro p - items bufs - l - - n hn q hq ⟨hlo, -⟩
  obtain ⟨a, ha, rfl⟩ := List.mem_map.mp hq
  have hbase := le_of_mem_layoutBehind ha
  have hlow := Mem.load8_le hm (p.ref + wordSize * l)
  rw [← spare] at hlow
  simp only [Placed.extent] at hlo
  have hn : n < 8 := hn
  omega

/-! ## The call -/

section Call

variable {env : Env F} {t : Target F} {k : Str}

theorem mem_fileValues {ps : List (Placed F)} {lines : List Str} {w : Placed F × Str}
    (h : w ∈ fileValues env ps lines) : w.1 ∈ ps ∧
      ∃ line ∈ scannedLines env (ps.map Placed.toParam) lines, ∃ l l',
        (w.1.toParam, l) ∈ reached env (ps.map Placed.toParam) line ∧
        scanParam w.1.toParam l = .value w.2 l' := by
  obtain ⟨line, hline, hw⟩ := List.mem_flatMap.mp h
  obtain ⟨hmem, hreached⟩ := mem_lineValues hw
  exact ⟨hmem, line, hline, hreached⟩

theorem handed_of_mem {ps : List (Placed F)} {lines : List Str}
    (h : allRefuse env k (ps.map Placed.toParam) lines = true) {w : Placed F × Str}
    (hw : w ∈ fileValues env ps lines) : Handed env k w.1.toParam w.2 := by
  obtain ⟨-, line, hline, l, l', hr, hval⟩ := mem_fileValues hw
  exact (allRefuse_reached h line hline _ hr).2 _ _ hval

theorem paramParseMem_values {ps : List (Placed F)} {filename text : Str}
    (htxt : (strstr filename ".txt".toList).isSome)
    (h : allRefuse env k (ps.map Placed.toParam) (fileLines text) = true) (m : Mem) :
    paramParseMem env t ps filename text m
      = (fileValues env ps (fileLines text)).foldlM (put env t) m := by
  rw [paramParseMem, Option.isNone_eq_false_iff.mpr htxt, if_neg Bool.false_ne_true]
  exact fileStores_values (fun line hline r hr => (allRefuse_reached h line hline r hr).1) m

/-- A value that does not stay does not leave a variable directly behind its own as it was: the
call gives the byte between them one value, whatever stood there. -/
theorem spill_seen {ps : List (Placed F)} {filename text : Str}
    (htxt : (strstr filename ".txt".toList).isSome)
    (href : allRefuse env k (ps.map Placed.toParam) (fileLines text) = true)
    (hapart : ps.Pairwise fun p q => p.extent.Apart q.extent) {p q : Placed F} {valStart : Str}
    (hmem : (p, valStart) ∈ fileValues env ps (fileLines text)) (hout : ¬ Stays p.var valStart)
    (hq : q ∈ ps) (hne : q.name ≠ k) (hqref : q.ref = p.ref + p.var.size)
    (hsize : 0 < q.var.size)
    (h : ∀ m : Mem, (∀ x, (m x).toNat ≤ 2) →
      ∃ m', paramParseMem env t ps filename text m = some m' ∧ KeptBytes k ps m m') : False := by
  have hx₀ : q.extent.Has (p.ref + p.var.size) := by
    simp only [Placed.extent, Extent.Has]
    omega
  obtain ⟨n₁, h₁, hkept₁⟩ := h (fun _ => 1) fun _ => by decide
  obtain ⟨n₂, h₂, hkept₂⟩ := h (fun x => if x = p.ref + p.var.size then 2 else 1) fun x => by
    split <;> decide
  rw [paramParseMem_values htxt href] at h₁ h₂
  have heq : n₁ = n₂ := by
    refine putAll_struck (fun w hw => ⟨handed_of_mem href hw, fun hwk => ?_⟩) hmem hout rfl
      (fun x hx => ?_) h₁ h₂
    · have hwq : w.1 ≠ q := fun he => hne (he ▸ hwk)
      exact fun hin => Extent.apart_of_pairwise hapart (mem_fileValues hw).1 hq hwq _ hin hx₀
    · rw [if_neg hx]
  have hone : n₁ (p.ref + p.var.size) = 1 := hkept₁ q hq hne _ hx₀
  have htwo : n₂ (p.ref + p.var.size) = 2 := (hkept₂ q hq hne _ hx₀).trans (if_pos rfl)
  rw [← heq, hone] at htwo
  exact absurd htwo (by decide)

/-- If the other variables are kept and one of them has a byte, every value stays. -/
theorem KeepsBytes.allStay {params : List (Param F)} {filename text : Str}
    (htxt : (strstr filename ".txt".toList).isSome)
    (href : allRefuse env k params (fileLines text) = true)
    (h : KeepsBytes env t params filename text k) {b : Param F} (hb : b ∈ params)
    (hne : b.name ≠ k) (hsize : 0 < b.var.size) : AllStay env params (fileLines text) := by
  intro line hline r hr
  rw [ValueStays]
  split
  case h_2 => trivial
  rename_i valStart l hval
  by_contra hout
  have handed := (allRefuse_reached href line hline r hr).2 _ _ hval
  have hname : r.1.name = k :=
    handed.key.resolve_right fun hrefused => hout (stays_of_refused hrefused)
  obtain ⟨i, hi, hvalues⟩ := lineValues_of_reached hr hval
  obtain ⟨j, hj, hbj⟩ := List.mem_iff_getElem.mp hb
  have hbj : params[j]? = some b := by rw [List.getElem?_eq_getElem hj, hbj]
  have hij : i ≠ j := by
    rintro rfl
    cases hi.symm.trans hbj
    exact hne hname
  -- `b` directly behind the variable that the value does not fit
  have hmap := besideEachOther_toParam params i j
  have hapart := besideEachOther_apart (List.getElem?_eq_some_iff.mp hi).1 hij
  obtain ⟨p, q, hp, hpr, hq, rfl, hqref⟩ := besideEachOther_neighbours hij hi hbj
  have hmem : (p, valStart) ∈ fileValues env (besideEachOther params i j) (fileLines text) :=
    List.mem_flatMap.mpr ⟨line, by rwa [hmap], hvalues _ hmap p hp⟩
  exact spill_seen htxt (by rwa [hmap]) hapart hmem (by rwa [hpr]) (List.mem_of_getElem? hq) hne
    hqref hsize fun m hm => h _ hmap hapart m (besideEachOther_buffered params i j hm)

theorem keepsBytes_of_allStay {params : List (Param F)} {filename text : Str}
    (htxt : (strstr filename ".txt".toList).isSome)
    (href : allRefuse env k params (fileLines text) = true)
    (h : (∃ q ∈ params, q.name ≠ k ∧ 0 < q.var.size) → AllStay env params (fileLines text)) :
    KeepsBytes env t params filename text k := by
  rintro ps rfl hapart m hm
  rw [paramParseMem_values htxt href]
  by_cases hother : ∃ q ∈ ps.map Placed.toParam, q.name ≠ k ∧ 0 < q.var.size
  · refine putAll_keeps hapart (fun w hw => ?_) hm
    obtain ⟨hmem, line, hline, l, l', hr, hval⟩ := mem_fileValues hw
    have hstays := h hother line hline _ hr
    rw [ValueStays] at hstays
    simp only [hval] at hstays
    exact ⟨hmem, hstays, handed_of_mem href hw⟩
  · obtain ⟨m', hm'⟩ := putAll_defined (t := t) (fun w hw => handed_of_mem href hw) m
    refine ⟨m', hm', fun q hq hne x hx => absurd ⟨q.toParam, List.mem_map_of_mem hq, hne, ?_⟩ hother⟩
    simp only [Placed.extent, Extent.Has] at hx
    omega

end Call

/-- `PUINT=89` clears the integer behind the variable. -/
example : (paramParseMem noFloats noFloatBytes
    [⟨⟨"PUINT".toList, "a uint".toList, false, false, .uint 0⟩, 100⟩,
      ⟨⟨"PINT".toList, "an int".toList, false, false, .int 0⟩, 104⟩]
    "params.txt".toList "PUINT=89\n".toList fun _ => 1).map (· 104) = some 0 := by
  decide +kernel

end DataCommons.Params
