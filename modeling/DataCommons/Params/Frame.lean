import DataCommons.Params.RoundTrip

/-!
# Which parameters a line changes

* `assign_refused`, `assign_taken`: a value either leaves the parameter as it is or
  leaves a trace in it;
* `paramLoop_keeps`, `paramLoop_refuses`: what one pass over the parameters does to
  the ones of other names;
* `keepsOthers_all_iff`: where every variable is an object of its own, a line keeps the
  parameters of other names, in every state of the variables, exactly when none of them
  takes a value from it and no access is undefined.
-/

namespace DataCommons.Params

open CString

variable {F : Type}

/-! ## What the branches take -/

def Item.isOk {α : Type} : Item α → Bool
  | .ok _ => true
  | _ => false

/-- Whether the first item of a list is stored. -/
def takesItem (env : Env F) : ListType → Str → Bool
  | .bool, token => (boolItem 0 token).isOk
  | .uint, token => (uintItem 0 token).isOk
  | .int, token => (intItem 0 token).isOk
  | .float, token => (floatItem env 0 token).isOk
  | .str bufs, token => (strItem bufs 0 token).isOk
  | .other, _ => false

/-- Whether a list takes the text: it starts with a bracket, and is empty or has a
first item that is stored. -/
def takesList (env : Env F) (type : ListType) (s : Str) : Bool :=
  s.head? = some '[' &&
    match tokensOf (s.drop 1).dropLast with
    | [] => true
    | token :: _ => takesItem env type token

/-- Whether the branch of the type stores something of the value text. -/
def takes (env : Env F) : VarType → Str → Bool
  | .bool, s => (boolWord s).isSome
  | .uint, s => (strtoull s).rest = []
  | .int, _ => true
  | .float, s => (env.strtof s).rest = []
  | .str, _ => true
  | .list type, s => takesList env type s
  | .binary _, s => (binDigits s).length / 2 ≤ maxBin

def ListVar.hasItems : ListVar F → Bool
  | .bool items => !items.isEmpty
  | .uint items => !items.isEmpty
  | .int items => !items.isEmpty
  | .float items => !items.isEmpty
  | .str items _ => !items.isEmpty
  | .other _ => false

/-- The parameter is marked or is a list with items. -/
def Param.touched (p : Param F) : Bool :=
  p.hasChanged ||
    match p.var with
    | .list l => l.hasItems
    | _ => false

/-! ## The items of a list -/

theorem storeItems_isEmpty {α : Type} (item : ℕ → Str → Item α) (old : List α) (tokens : List Str)
    (h : old.isEmpty = false) : (storeItems item old tokens).1.isEmpty = false := by
  rw [storeItems]
  generalize takeItems item 0 tokens = r
  obtain ⟨items, ret⟩ := r
  cases items with
  | nil => exact h
  | cons a items => rfl

/-- A first item that is not stored leaves the list. -/
theorem storeItems_refused {α : Type} {item : ℕ → Str → Item α} {token : Str}
    (h : (item 0 token).isOk = false) (old : List α) (tokens : List Str) :
    storeItems item old (token :: tokens) = (old, some false) ∨
      (storeItems item old (token :: tokens)).2 = none := by
  have hcap : ¬ 0 ≥ listCap := by decide
  cases hi : item 0 token with
  | ok a => rw [hi] at h; cases h
  | reject => exact Or.inl (by simp [storeItems, takeItems, hcap, hi])
  | undefined => exact Or.inr (by simp [storeItems, takeItems, hcap, hi])

theorem storeItems_taken {α : Type} {item : ℕ → Str → Item α} {token : Str}
    (h : (item 0 token).isOk = true) (old : List α) (tokens : List Str) :
    (storeItems item old (token :: tokens)).1.isEmpty = false := by
  have hcap : ¬ 0 ≥ listCap := by decide
  cases hi : item 0 token with
  | ok a => simp [storeItems, takeItems, hcap, hi]
  | reject => rw [hi] at h; cases h
  | undefined => rw [hi] at h; cases h

theorem tokenLoop_refused {env : Env F} {v : ListVar F} {token : Str}
    (h : takesItem env v.type token = false) (tokens : List Str) :
    tokenLoop env v (token :: tokens) = (v, some false) ∨
      (tokenLoop env v (token :: tokens)).2 = none := by
  cases v with
  | bool items | uint items | int items | float items | str items _ =>
    rcases storeItems_refused h items tokens with hs | hs
    · exact Or.inl (by rw [tokenLoop, hs])
    · exact Or.inr hs
  | other count => exact Or.inl rfl

theorem tokenLoop_taken {env : Env F} {v : ListVar F} {token : Str}
    (h : takesItem env v.type token = true) (tokens : List Str) :
    (tokenLoop env v (token :: tokens)).1.hasItems = true := by
  cases v with
  | other count => cases h
  | _ => exact congrArg not (storeItems_taken h _ tokens)

/-- What the loop returns does not depend on the items before. -/
theorem tokenLoop_snd_congr (env : Env F) {v w : ListVar F} (h : v.type = w.type)
    (tokens : List Str) : (tokenLoop env v tokens).2 = (tokenLoop env w tokens).2 := by
  cases v with
  | str _ bufs =>
    cases w with
    | str _ bufs' =>
      cases h
      rfl
    | _ => cases h
  | _ => cases w <;> first | rfl | cases h

theorem tokenLoop_hasItems (env : Env F) {v : ListVar F} (tokens : List Str)
    (h : v.hasItems = true) : (tokenLoop env v tokens).1.hasItems = true := by
  cases v with
  | other count => exact h
  | bool items | uint items | int items | float items | str items _ =>
    have hne : items.isEmpty = false := by simpa only [ListVar.hasItems, Bool.not_eq_true'] using h
    exact congrArg not (storeItems_isEmpty _ items tokens hne)

theorem parseListParam_refused {env : Env F} {v : ListVar F} {s : Str}
    (h : takesList env v.type s = false) (hdef : (parseListParam env v s).2 ≠ none) :
    parseListParam env v s = (v, some false) := by
  rw [parseListParam] at hdef ⊢
  split
  · next hhead =>
    rw [if_pos hhead] at hdef
    simp only [takesList, hhead, decide_true, Bool.true_and] at h
    split at h
    · cases h
    · next token tokens htok =>
      rw [htok] at hdef ⊢
      exact (tokenLoop_refused h tokens).resolve_right hdef
  · rfl

theorem parseListParam_taken {env : Env F} {v : ListVar F} {s : Str}
    (h : takesList env v.type s = true) :
    (parseListParam env v s).2 = some true ∨ (parseListParam env v s).1.hasItems = true := by
  simp only [takesList, Bool.and_eq_true, decide_eq_true_eq] at h
  obtain ⟨hhead, htok⟩ := h
  rw [parseListParam, if_pos hhead]
  split at htok
  · next hnil =>
    rw [hnil]
    left
    cases v <;> rfl
  · next token tokens hcons =>
    rw [hcons]
    exact Or.inr (tokenLoop_taken htok tokens)

theorem parseListParam_hasItems (env : Env F) {v : ListVar F} (s : Str) (h : v.hasItems = true) :
    (parseListParam env v s).1.hasItems = true := by
  rw [parseListParam]
  split
  · exact tokenLoop_hasItems env _ h
  · exact h

theorem parseListParam_snd_congr (env : Env F) {v w : ListVar F} (h : v.type = w.type) (s : Str) :
    (parseListParam env v s).2 = (parseListParam env w s).2 := by
  rw [parseListParam, parseListParam]
  split
  · exact tokenLoop_snd_congr env h _
  · rfl

/-! ## One value -/

theorem binLoop_snd_congr (env : Env F) (digits : Str) {bytes bytes' : List UInt8}
    (h : bytes.length = bytes'.length) :
    (binLoop env digits bytes).2 = (binLoop env digits bytes').2 := by
  fun_induction binLoop env digits bytes generalizing bytes' with
  | case1 bytes => rw [binLoop]
  | case2 c bytes => rw [binLoop]
  | case3 a b digits =>
    rw [List.length_eq_zero_iff.mp h.symm, binLoop]
  | case4 a b digits byte bytes hn =>
    obtain ⟨byte', bytes', rfl⟩ := List.exists_cons_of_length_eq_add_one h.symm
    rw [binLoop, hn]
  | case5 a b digits byte bytes n hn rest ending hrec ih =>
    obtain ⟨byte', bytes', rfl⟩ := List.exists_cons_of_length_eq_add_one h.symm
    rw [binLoop, hn]
    rw [hrec] at ih
    exact ih (Nat.succ.inj h)

theorem binLoop_snd (env : Env F) (digits : Str) (bytes : List UInt8) :
    (binLoop env digits bytes).2 = .done ∨ (binLoop env digits bytes).2 = .undefined := by
  fun_induction binLoop env digits bytes with
  | case1 => exact Or.inl rfl
  | case2 => exact Or.inr rfl
  | case3 => exact Or.inr rfl
  | case4 => exact Or.inr rfl
  | case5 a b digits byte bytes n hn rest ending hrec ih =>
    rw [hrec] at ih
    exact ih

/-- How the `switch` ends depends on the registered type and the text only. -/
theorem assignVar_ending_congr (env : Env F) {v w : Var F} (h : v.type = w.type) (s : Str) :
    (assignVar env v s).2.1 = (assignVar env w s).2.1 := by
  cases v with
  | bool _ =>
    cases w with
    | bool _ =>
      simp only [assignVar]
      split <;> rfl
    | _ => cases h
  | uint _ =>
    cases w with
    | uint _ =>
      simp only [assignVar]
      split <;> rfl
    | _ => cases h
  | int _ => cases w <;> first | rfl | cases h
  | float _ =>
    cases w with
    | float _ =>
      simp only [assignVar]
      split <;> rfl
    | _ => cases h
  | str _ => cases w <;> first | rfl | cases h
  | list l =>
    cases w with
    | list l' =>
      have hret := parseListParam_snd_congr env (VarType.list.inj h) s
      simp only [assignVar]
      generalize parseListParam env l s = r at hret ⊢
      generalize parseListParam env l' s = r' at hret ⊢
      obtain ⟨x, ret⟩ := r
      obtain ⟨x', ret'⟩ := r'
      cases hret
      cases ret <;> rfl
    | _ => cases h
  | binary bytes =>
    cases w with
    | binary bytes' =>
      simp only [assignVar]
      split
      · rfl
      · exact binLoop_snd_congr env _ (VarType.binary.inj h)
    | _ => cases h

/-- **A value that is not taken leaves the parameter.** -/
theorem assign_refused {env : Env F} {p : Param F} {s : Str} (h : takes env p.var.type s = false)
    (hdef : (assign env p s).2 ≠ .undefined) : (assign env p s).1 = p := by
  have hvar : (assignVar env p.var s).1 = p.var ∧ (assignVar env p.var s).2.2 = false := by
    simp only [assign] at hdef
    generalize p.var = v at h hdef ⊢
    cases v with
    | bool b =>
      have hw : boolWord s = none := by simpa [Var.type, takes] using h
      simp only [assignVar, hw, and_self]
    | uint n =>
      have hw : (strtoull s).rest ≠ [] := by simpa [Var.type, takes] using h
      simp only [assignVar, if_pos hw, and_self]
    | int i => cases h
    | float x =>
      have hw : (env.strtof s).rest ≠ [] := by simpa [Var.type, takes] using h
      simp only [assignVar, if_pos hw, and_self]
    | str t => cases h
    | list l =>
      have hret : (parseListParam env l s).2 ≠ none := by
        intro hn
        apply hdef
        rw [assignVar]
        split
        · next heq =>
          rw [heq] at hn
          cases hn
        · rfl
      simp only [assignVar, parseListParam_refused h hret, and_self]
    | binary bytes =>
      have hw : (binDigits s).length / 2 > maxBin := by simpa [Var.type, takes] using h
      simp only [assignVar, if_pos hw, and_self]
  simp only [assign, hvar.1, hvar.2, Bool.or_false]

/-- **A value that is taken leaves a trace.** -/
theorem assign_taken {env : Env F} {p : Param F} {s : Str} (h : takes env p.var.type s = true)
    (hdef : (assign env p s).2 ≠ .undefined) : (assign env p s).1.touched = true := by
  simp only [assign, Param.touched, Bool.or_eq_true] at hdef ⊢
  generalize p.var = v at h hdef ⊢
  cases v with
  | bool b =>
    obtain ⟨w, hw⟩ := Option.isSome_iff_exists.mp h
    simp only [assignVar, hw, or_true, true_or]
  | uint n =>
    have hw : (strtoull s).rest = [] := by simpa [Var.type, takes] using h
    simp only [assignVar, hw, ne_eq, not_true_eq_false, if_false, or_true, true_or]
  | int i => exact Or.inl (Or.inr rfl)
  | float x =>
    have hw : (env.strtof s).rest = [] := by simpa [Var.type, takes] using h
    simp only [assignVar, hw, ne_eq, not_true_eq_false, if_false, or_true, true_or]
  | str t => exact Or.inl (Or.inr rfl)
  | list l =>
    have hl := parseListParam_taken h
    simp only [assignVar] at hdef ⊢
    generalize parseListParam env l s = r at hl hdef ⊢
    obtain ⟨l', ret⟩ := r
    cases ret with
    | none => exact absurd rfl hdef
    | some ok =>
      rcases hl with hl | hl
      · exact Or.inl (Or.inr (Option.some.inj hl))
      · exact Or.inr hl
  | binary bytes =>
    have hw : ¬ (binDigits s).length / 2 > maxBin := by simpa [Var.type, takes] using h
    simp only [assignVar, if_neg hw] at hdef ⊢
    have hdone := (binLoop_snd env (binDigits s) bytes).resolve_right hdef
    exact Or.inl (Or.inr (decide_eq_true hdone))

theorem touched_assign {env : Env F} {p : Param F} (s : Str) (h : p.touched = true) :
    (assign env p s).1.touched = true := by
  simp only [assign, Param.touched, Bool.or_eq_true] at h ⊢
  rcases h with h | h
  · exact Or.inl (Or.inl h)
  · right
    generalize p.var = v at h ⊢
    cases v with
    | list l =>
      have hl := parseListParam_hasItems env s h
      simp only [assignVar]
      generalize parseListParam env l s = r at hl ⊢
      obtain ⟨l', ret⟩ := r
      cases ret <;> exact hl
    | _ => cases h

/-! ## One line -/

/-- A pass over the parameters hands no value to a parameter of another name that
takes it, and meets no undefined access; `next` is the same for the reads after it. -/
def othersRefuse (env : Env F) (k : Str) (next : Bool) : List (Param F) → Str → Bool
  | [], _ => next
  | p :: ps, line =>
    match scanParam p line with
    | .miss => othersRefuse env k next ps line
    | .stop => next
    | .undefined => false
    | .value valStart line =>
      (p.name = k || !takes env p.var.type valStart) &&
        match (assign env p valStart).2 with
        | .done => othersRefuse env k next ps line
        | .reject _ => true
        | .undefined => false

/-- The parameter is as before unless `k` is its name. -/
def Kept (k : Str) (p' p : Param F) : Prop := p.name ≠ k → p' = p

theorem Kept.refl (k : Str) (p : Param F) : Kept k p p := fun _ => rfl

theorem Kept.trans {k : Str} {r q p : Param F} (h : Kept k r q) (h' : Kept k q p) : Kept k r p := by
  intro hp
  have hqp := h' hp
  exact (h (hqp ▸ hp)).trans hqp

theorem forall₂_trans {α : Type} {r : α → α → Prop} {l₁ l₂ l₃ : List α}
    (h : List.Forall₂ r l₁ l₂) (h' : List.Forall₂ r l₂ l₃)
    (hr : ∀ {a b c}, r a b → r b c → r a c) : List.Forall₂ r l₁ l₃ := by
  induction h generalizing l₃ with
  | nil => exact h'
  | cons h _ ih =>
    cases h' with
    | cons g gs => exact .cons (hr h g) (ih gs)

/-- What a pass does to every single parameter: nothing, or the `switch` on some
value. -/
theorem paramLoop_forall₂ {env : Env F} {r : Param F → Param F → Prop} (hrefl : ∀ p, r p p)
    (hassign : ∀ p s, r (assign env p s).1 p) (ps : List (Param F)) (line : Str) :
    List.Forall₂ r (paramLoop env ps line).1 ps := by
  induction ps generalizing line with
  | nil => exact .nil
  | cons p ps ih =>
    rw [paramLoop]
    split
    · exact .cons (hrefl p) (ih line)
    · exact .cons (hrefl p) (List.forall₂_same.mpr fun q _ => hrefl q)
    · exact .cons (hrefl p) (List.forall₂_same.mpr fun q _ => hrefl q)
    · next valStart l _ =>
      have hp := hassign p valStart
      split
      · next heq =>
        rw [heq] at hp
        exact .cons hp (ih l)
      · next heq =>
        rw [heq] at hp
        exact .cons hp (List.forall₂_same.mpr fun q _ => hrefl q)

theorem paramLoop_registered (env : Env F) (ps : List (Param F)) (line : Str) :
    List.Forall₂ Registered (paramLoop env ps line).1 ps :=
  paramLoop_forall₂ Registered.refl (assign_registered env) ps line

theorem othersRefuse_congr (env : Env F) (k : Str) (next : Bool) {qs ps : List (Param F)}
    (h : List.Forall₂ Registered qs ps) (line : Str) :
    othersRefuse env k next qs line = othersRefuse env k next ps line := by
  induction h generalizing line with
  | nil => rfl
  | @cons q p qs ps hq _ ih =>
    rw [othersRefuse, othersRefuse, scanParam_congr hq]
    split
    · exact ih line
    · rfl
    · rfl
    · next s l _ =>
      have hend : (assign env q s).2 = (assign env p s).2 := assignVar_ending_congr env hq.type s
      rw [hq.name, hq.type, hend, ih l]

/-- **A pass in which the others refuse keeps them.** -/
theorem paramLoop_keeps {env : Env F} {k : Str} {next : Bool} {ps : List (Param F)} {line : Str}
    (h : othersRefuse env k next ps line = true) :
    (paramLoop env ps line).2.2 ≠ .undefined ∧
      ((paramLoop env ps line).2.2 = .done → next = true) ∧
      List.Forall₂ (Kept k) (paramLoop env ps line).1 ps := by
  have hsame : ∀ qs : List (Param F), List.Forall₂ (Kept k) qs qs :=
    fun qs => List.forall₂_same.mpr fun q _ => Kept.refl k q
  induction ps generalizing line with
  | nil => exact ⟨by simp [paramLoop], fun _ => h, .nil⟩
  | cons p ps ih =>
    cases hs : scanParam p line with
    | miss =>
      simp only [othersRefuse, hs] at h
      simp only [paramLoop, hs]
      obtain ⟨hdef, hnext, hkept⟩ := ih h
      exact ⟨hdef, hnext, .cons (Kept.refl k p) hkept⟩
    | stop =>
      simp only [othersRefuse, hs] at h
      simp only [paramLoop, hs]
      exact ⟨by simp, fun _ => h, hsame _⟩
    | undefined =>
      simp only [othersRefuse, hs] at h
      cases h
    | value s l =>
      simp only [othersRefuse, hs, Bool.and_eq_true] at h
      simp only [paramLoop, hs]
      obtain ⟨hname, hend⟩ := h
      have hp : (assign env p s).2 ≠ .undefined → Kept k (assign env p s).1 p := by
        intro hdef hne
        have hw : takes env p.var.type s = false := by simpa [hne] using hname
        exact assign_refused hw hdef
      generalize assign env p s = a at hend hp ⊢
      obtain ⟨p', e⟩ := a
      cases e with
      | done =>
        obtain ⟨hdef, hnext, hkept⟩ := ih hend
        exact ⟨hdef, hnext, .cons (hp (by simp)) hkept⟩
      | reject err => exact ⟨by simp, by simp, .cons (hp (by simp)) (hsame _)⟩
      | undefined => cases hend

/-- **A pass after which the others bear no trace is one in which they refuse.** -/
theorem paramLoop_refuses {env : Env F} {k : Str} {next : Bool} {ps : List (Param F)} {line : Str}
    (hdef : (paramLoop env ps line).2.2 ≠ .undefined)
    (hnext : (paramLoop env ps line).2.2 = .done → next = true)
    (h : ∀ p ∈ (paramLoop env ps line).1, p.name ≠ k → p.touched = false) :
    othersRefuse env k next ps line = true := by
  induction ps generalizing line with
  | nil => exact hnext rfl
  | cons p ps ih =>
    cases hs : scanParam p line with
    | miss =>
      simp only [paramLoop, hs] at hdef hnext h
      simp only [othersRefuse, hs]
      exact ih hdef hnext fun q hq => h q (List.mem_cons_of_mem p hq)
    | stop =>
      simp only [paramLoop, hs] at hnext
      simp only [othersRefuse, hs]
      exact hnext trivial
    | undefined =>
      simp only [paramLoop, hs] at hdef
      exact absurd rfl hdef
    | value s l =>
      simp only [paramLoop, hs] at hdef hnext h
      simp only [othersRefuse, hs, Bool.and_eq_true]
      have hname : (assign env p s).1.name = p.name := (assign_registered env p s).name
      have htaken : (assign env p s).2 ≠ .undefined → (assign env p s).1.touched = false →
          takes env p.var.type s = false := by
        intro hd ht
        rw [← Bool.not_eq_true] at ht ⊢
        exact fun hw => ht (assign_taken hw hd)
      generalize assign env p s = a at hdef hnext h hname htaken ⊢
      obtain ⟨p', e⟩ := a
      have hfirst : e ≠ .undefined → (p'.name ≠ k → p'.touched = false) →
          (decide (p.name = k) || !takes env p.var.type s) = true := by
        intro hd ht
        by_cases hk : p.name = k
        · simp only [hk, decide_true, Bool.true_or]
        · simp only [htaken hd (ht (hname ▸ hk)), Bool.not_false, Bool.or_true]
      cases e with
      | done =>
        exact ⟨hfirst (by simp) (h p' List.mem_cons_self),
          ih hdef hnext fun q hq => h q (List.mem_cons_of_mem p' hq)⟩
      | reject err => exact ⟨hfirst (by simp) (h p' List.mem_cons_self), rfl⟩
      | undefined => exact absurd rfl hdef

/-! ## The call -/

/-- The others refuse in every pass that the call comes to.  A line that `fgets` cannot
read at once makes more than one pass. -/
def allRefuse (env : Env F) (k : Str) (ps : List (Param F)) : List Str → Bool
  | [] => true
  | line :: lines =>
    if skipped line then allRefuse env k ps lines
    else othersRefuse env k (allRefuse env k ps lines) ps line

theorem lineLoop_keeps {env : Env F} {k : Str} {ps qs : List (Param F)} {lines : List Str}
    (hreg : List.Forall₂ Registered qs ps) (h : allRefuse env k ps lines = true) :
    (lineLoop env qs lines).2.2 ≠ .undefined ∧
      List.Forall₂ (Kept k) (lineLoop env qs lines).1 qs := by
  induction lines generalizing qs with
  | nil => exact ⟨by simp [lineLoop], List.forall₂_same.mpr fun q _ => Kept.refl k q⟩
  | cons line lines ih =>
    rw [allRefuse] at h
    rw [lineLoop]
    split at h
    · next hs =>
      rw [if_pos hs]
      exact ih hreg h
    · next hs =>
      rw [if_neg hs]
      rw [← othersRefuse_congr env k _ hreg] at h
      obtain ⟨hdef, hnext, hkept⟩ := paramLoop_keeps h
      have hreg' := forall₂_trans (paramLoop_registered env qs line) hreg Registered.trans
      generalize paramLoop env qs line = a at hdef hnext hkept hreg' ⊢
      obtain ⟨qs', found, e⟩ := a
      cases e with
      | done =>
        obtain ⟨hd, hk⟩ := ih hreg' (hnext rfl)
        exact ⟨hd, forall₂_trans hk hkept Kept.trans⟩
      | reject err => exact ⟨by simp, hkept⟩
      | undefined => exact absurd rfl hdef

/-- The same parameter, which bears at least the trace that it bore. -/
def Grows (p' p : Param F) : Prop := p'.name = p.name ∧ (p.touched = true → p'.touched = true)

theorem Grows.refl (p : Param F) : Grows p p := ⟨rfl, id⟩

theorem Grows.trans {r q p : Param F} (h : Grows r q) (h' : Grows q p) : Grows r p :=
  ⟨h.1.trans h'.1, fun ht => h.2 (h'.2 ht)⟩

theorem lineLoop_grows (env : Env F) (qs : List (Param F)) (lines : List Str) :
    List.Forall₂ Grows (lineLoop env qs lines).1 qs := by
  induction lines generalizing qs with
  | nil => exact List.forall₂_same.mpr fun p _ => Grows.refl p
  | cons line lines ih =>
    rw [lineLoop]
    split
    · exact ih qs
    · have hpass : List.Forall₂ Grows (paramLoop env qs line).1 qs :=
        paramLoop_forall₂ Grows.refl (fun _ s => ⟨rfl, touched_assign s⟩) qs line
      generalize paramLoop env qs line = a at hpass ⊢
      obtain ⟨qs', found, e⟩ := a
      cases e with
      | done =>
        exact forall₂_trans (ih qs') hpass Grows.trans
      | reject err => exact hpass
      | undefined => exact hpass

theorem untouched_before {k : Str} {ps' ps : List (Param F)}
    (h : List.Forall₂ Grows ps' ps)
    (hafter : ∀ p ∈ ps', p.name ≠ k → p.touched = false) :
    ∀ p ∈ ps, p.name ≠ k → p.touched = false := by
  induction h with
  | nil => simp
  | @cons p' p ps' ps hp _ ih =>
    intro r hr hk
    rcases List.mem_cons.mp hr with rfl | hr
    · have hu := hafter p' List.mem_cons_self (hp.1 ▸ hk)
      rw [← Bool.not_eq_true] at hu ⊢
      exact fun ht => hu (hp.2 ht)
    · exact ih (fun q hq => hafter q (List.mem_cons_of_mem p' hq)) r hr hk

theorem lineLoop_refuses {env : Env F} {k : Str} {ps qs : List (Param F)} {lines : List Str}
    (hreg : List.Forall₂ Registered qs ps) (hdef : (lineLoop env qs lines).2.2 ≠ .undefined)
    (h : ∀ p ∈ (lineLoop env qs lines).1, p.name ≠ k → p.touched = false) :
    allRefuse env k ps lines = true := by
  induction lines generalizing qs with
  | nil => rfl
  | cons line lines ih =>
    rw [lineLoop] at hdef h
    rw [allRefuse]
    split
    · next hs =>
      rw [if_pos hs] at hdef h
      exact ih hreg hdef h
    · next hs =>
      rw [if_neg hs] at hdef h
      rw [← othersRefuse_congr env k _ hreg]
      have hreg' := forall₂_trans (paramLoop_registered env qs line) hreg Registered.trans
      apply paramLoop_refuses
      · intro hu
        generalize paramLoop env qs line = a at hdef hu
        obtain ⟨qs', found, e⟩ := a
        cases hu
        exact hdef rfl
      · intro hd
        generalize paramLoop env qs line = a at hdef h hreg' hd
        obtain ⟨qs', found, e⟩ := a
        cases hd
        exact ih hreg' hdef h
      · generalize paramLoop env qs line = a at h
        obtain ⟨qs', found, e⟩ := a
        cases e with
        | done => exact untouched_before (lineLoop_grows env qs' lines) h
        | reject err => exact h
        | undefined => exact h

/-- The call is defined and leaves every parameter whose name is not `k` as it was. -/
def KeepsOthers (env : Env F) (c : ParamCtx F) (filename text k : Str) : Prop :=
  ∃ c' ok, paramParseTxt env c filename (some text) = some (c', ok) ∧
    List.Forall₂ (Kept k) c'.params c.params

theorem keepsOthers_eq {env : Env F} {c : ParamCtx F} {filename text k : Str}
    (htxt : (strstr filename ".txt".toList).isSome) :
    KeepsOthers env c filename text k ↔
      (lineLoop env c.params (fileLines text)).2.2 ≠ .undefined ∧
        List.Forall₂ (Kept k) (lineLoop env c.params (fileLines text)).1 c.params := by
  rw [KeepsOthers, paramParseTxt_file htxt]
  generalize lineLoop env c.params (fileLines text) = a
  obtain ⟨ps, found, e⟩ := a
  cases e with
  | done =>
    refine ⟨?_, fun h => ?_⟩
    · rintro ⟨c', ok, heq, hk⟩
      dsimp only at heq
      split_ifs at heq <;> cases heq <;> exact ⟨by simp, hk⟩
    · dsimp only
      split_ifs <;> exact ⟨_, _, rfl, h.2⟩
  | reject err =>
    refine ⟨?_, fun h => ⟨_, _, rfl, h.2⟩⟩
    rintro ⟨c', ok, heq, hk⟩
    cases heq
    exact ⟨by simp, hk⟩
  | undefined =>
    refine ⟨?_, fun h => absurd rfl h.1⟩
    rintro ⟨c', ok, heq, -⟩
    cases heq

/-- The key of a line: the text before the first `=` without the blanks at its end. -/
def keyOf (line : Str) : Str := ((line.takeWhile (· ≠ '=')).reverse.dropWhile (· = ' ')).reverse

/-- A parameter as it is before anything is read: not marked, a list without items. -/
def fresh (p : Param F) : Param F :=
  { p with
    hasChanged := false
    var :=
      match p.var with
      | .list (.bool _) => .list (.bool [])
      | .list (.uint _) => .list (.uint [])
      | .list (.int _) => .list (.int [])
      | .list (.float _) => .list (.float [])
      | .list (.str _ bufs) => .list (.str [] bufs)
      | v => v }

theorem fresh_registered (p : Param F) : Registered (fresh p) p := by
  refine ⟨rfl, rfl, ?_⟩
  simp only [fresh]
  split <;> first | rfl | simp only [*, Var.type, ListVar.type]

theorem fresh_untouched (p : Param F) : (fresh p).touched = false := by
  obtain ⟨name, desc, isMandatory, hasChanged, var⟩ := p
  cases var with
  | list l => cases l <;> rfl
  | _ => rfl

theorem kept_untouched {k : Str} {after start : List (Param F)}
    (h : List.Forall₂ (fun p' p => p'.name = p.name ∧ Kept k p' p) after start)
    (hstart : ∀ p ∈ start, p.touched = false) :
    ∀ p ∈ after, p.name ≠ k → p.touched = false := by
  induction h with
  | nil => simp
  | @cons p' p after start hp _ ih =>
    intro r hr hk
    rcases List.mem_cons.mp hr with rfl | hr
    · rw [hp.2 (hp.1 ▸ hk)]
      exact hstart p List.mem_cons_self
    · exact ih (fun q hq => hstart q (List.mem_cons_of_mem p hq)) r hr hk

/-- **A line keeps the others**, in every state of the registered parameters, exactly when
they refuse what it hands to them. -/
theorem keepsOthers_all_iff (env : Env F) (ps : List (Param F)) {filename : Str}
    (htxt : (strstr filename ".txt".toList).isSome) (line : Str) :
    (∀ c : ParamCtx F, List.Forall₂ Registered c.params ps →
      KeepsOthers env c filename line (keyOf line)) ↔
    allRefuse env (keyOf line) ps (fileLines line) = true := by
  constructor
  · intro h
    have hreg : List.Forall₂ Registered (ps.map fresh) ps := by
      rw [List.forall₂_map_left_iff]
      exact List.forall₂_same.mpr fun p _ => fresh_registered p
    obtain ⟨hdef, hkept⟩ := (keepsOthers_eq htxt).mp (h ⟨ps.map fresh, .noError⟩ hreg)
    have huntouched : ∀ p ∈ ps.map fresh, p.touched = false := by
      intro p hp
      obtain ⟨q, -, rfl⟩ := List.mem_map.mp hp
      exact fresh_untouched q
    have hnames := lineLoop_grows env (ps.map fresh) (fileLines line)
    exact lineLoop_refuses hreg hdef
      (kept_untouched (hkept.mp (fun _ _ hk h => ⟨h.1, hk⟩) hnames) huntouched)
  · intro h c hreg
    exact (keepsOthers_eq htxt).mpr (lineLoop_keeps hreg h)

def intAndStr (i : Int32) (s : Str) (marked : Bool) : ParamCtx Unit :=
  ⟨[⟨"PINT".toList, "an int value".toList, true, marked, .int i⟩,
    ⟨"PSTR".toList, "a string param".toList, true, marked, .str s⟩], .noError⟩

end DataCommons.Params
