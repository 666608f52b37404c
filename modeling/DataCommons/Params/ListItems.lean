import DataCommons.Params.Integers
import DataCommons.Params.Lists

/-!
# What `ParseListParam` makes of the tokens

A list that is taken holds the values of its tokens, but for two things: the count
of a list without tokens is never stored, and `strtoul` takes a negative number whose
wrapped value fits.

* `takeItems_true_iff`, `storeItems_right_iff`: the token loop for any type of item;
* `boolItem_ok_iff`, `intItem_ok_iff`, `uintItem_taken_iff`, `uintItem_right_iff`: what one
  token gives;
* `list_right_iff`: the lists and texts for which a result `true` means what it says.
-/

namespace DataCommons.Params

open CString

variable {F : Type}

/-- The items are the values of the tokens, one for each. -/
def Listed : ListVar F → List Str → Prop
  | .bool items, tokens => List.Forall₂ (fun b t => boolWord t = some b) items tokens
  | .uint items, tokens => List.Forall₂ (fun n t => Denotes t n.toNat) items tokens
  | .int items, tokens => List.Forall₂ (fun i t => Denotes t i.toInt) items tokens
  | _, _ => False

/-- The text as it stands in its brackets. -/
def inBrackets (text : Str) : Str := '[' :: (text ++ [']'])

/-- If `ParseListParam` returns `true`, the list holds the values of the tokens, and any
text with these tokens gives the same list. -/
def ListRight (env : Env F) (v : ListVar F) (text : Str) : Prop :=
  ∀ v', parseListParam env v (inBrackets text) = (v', some true) →
    Listed v' (tokensOf text) ∧
      ∀ text', tokensOf text' = tokensOf text →
        parseListParam env v (inBrackets text') = (v', some true)

/-- A negative number that `strtoul` turns into one of 32 bits. -/
def Wraps (t : Str) : Prop := ∃ z, Denotes t z ∧ -2 ^ 64 < z ∧ z < 2 ^ 32 - 2 ^ 64

/-- The text has a token or the list is empty, and no unsigned token wraps, unless the
text is refused. -/
def ListSafe (v : ListVar F) (text : Str) : Prop :=
  (tokensOf text ≠ [] ∨ v.count = 0) ∧
    (v.type = .uint → (tokensOf text).length ≤ listCap → (∃ t ∈ tokensOf text, Wraps t) →
      ∃ t ∈ tokensOf text, ¬ IntegerText .uint t ∧ ¬ Wraps t)

/-! ## The loop over the tokens -/

section Items

variable {α : Type} {item : ℕ → Str → Item α} {den : α → Str → Prop}

/-- **All tokens are taken exactly if** there is room for them and each gives an item. -/
theorem takeItems_true_iff (hconst : ∀ i t, item i t = item 0 t) {idx : ℕ} (hidx : idx ≤ listCap)
    (tokens : List Str) (items : List α) :
    takeItems item idx tokens = (items, some true) ↔
      idx + tokens.length ≤ listCap ∧ List.Forall₂ (fun a t => item 0 t = .ok a) items tokens := by
  induction tokens generalizing idx items with
  | nil => simp [takeItems, eq_comm, hidx]
  | cons t tokens ih =>
    rw [takeItems, List.length_cons]
    by_cases hfull : idx ≥ listCap
    · rw [if_pos hfull]
      constructor
      · intro h
        simp at h
      · rintro ⟨hlen, -⟩
        omega
    rw [if_neg hfull, hconst idx t]
    cases ht : item 0 t with
    | ok a =>
      have ih := fun as => @ih (idx + 1) (by omega) as
      simp only [List.forall₂_cons_right_iff]
      generalize takeItems item (idx + 1) tokens = r at ih
      obtain ⟨as, ret⟩ := r
      constructor
      · intro h
        cases h
        obtain ⟨hlen, has⟩ := (ih as).mp rfl
        exact ⟨by omega, a, as, ht, has, rfl⟩
      · rintro ⟨hlen, b, bs, hb, hbs, rfl⟩
        rw [ht] at hb
        cases hb
        have h := (ih bs).mpr ⟨by omega, hbs⟩
        cases h
        rfl
    | reject => simp [List.forall₂_cons_right_iff, ht]
    | undefined => simp [List.forall₂_cons_right_iff, ht]

theorem storeItems_true_iff (hconst : ∀ i t, item i t = item 0 t) (old : List α) {tokens : List Str}
    (hne : tokens ≠ []) (items : List α) :
    storeItems item old tokens = (items, some true) ↔
      tokens.length ≤ listCap ∧ List.Forall₂ (fun a t => item 0 t = .ok a) items tokens := by
  have htake := takeItems_true_iff hconst (Nat.zero_le listCap) tokens
  rw [Nat.zero_add] at htake
  rw [← htake, storeItems]
  generalize takeItems item 0 tokens = r at htake
  obtain ⟨as, ret⟩ := r
  have hkeep : ret = some true → as.isEmpty = false := by
    rintro rfl
    have hlen := ((htake as).mp rfl).2.length_eq
    rw [List.isEmpty_eq_false_iff, ← List.length_pos_iff, hlen, List.length_pos_iff]
    exact hne
  constructor
  · intro h
    rw [Prod.mk.injEq] at h
    rw [hkeep h.2, if_neg Bool.false_ne_true] at h
    rw [h.1, h.2]
  · intro h
    cases h
    dsimp only
    rw [hkeep rfl, if_neg Bool.false_ne_true]

/-- Tokens that all give an item give a list of them. -/
theorem exists_items {tokens : List Str} (h : ∀ t ∈ tokens, ∃ a, item 0 t = .ok a) :
    ∃ items, List.Forall₂ (fun a t => item 0 t = .ok a) items tokens := by
  induction tokens with
  | nil => exact ⟨[], .nil⟩
  | cons t tokens ih =>
    obtain ⟨a, ha⟩ := h t List.mem_cons_self
    obtain ⟨items, hitems⟩ := ih fun u hu => h u (List.mem_cons_of_mem t hu)
    exact ⟨a :: items, .cons ha hitems⟩

theorem forall₂_den_iff {tokens : List Str} {items : List α}
    (h : List.Forall₂ (fun a t => item 0 t = .ok a) items tokens) :
    List.Forall₂ den items tokens ↔ ∀ t ∈ tokens, ∀ a, item 0 t = .ok a → den a t := by
  induction h with
  | nil => simp
  | @cons a t items tokens ha _ ih =>
    rw [List.forall₂_cons, List.forall_mem_cons, ih]
    refine and_congr_left fun _ => ⟨fun hden b hb => ?_, fun hden => hden a ha⟩
    rw [ha] at hb
    cases hb
    exact hden

/-- **A result `true` means what it says** exactly if an empty text meets an empty list
and every item that a taken text gives is the value of its token. -/
theorem storeItems_right_iff (hconst : ∀ i t, item i t = item 0 t) (old : List α)
    (tokens : List Str) :
    (∀ items, storeItems item old tokens = (items, some true) → List.Forall₂ den items tokens) ↔
      (tokens ≠ [] ∨ old = []) ∧
        (tokens.length ≤ listCap → (∀ t ∈ tokens, ∃ a, item 0 t = .ok a) →
          ∀ t ∈ tokens, ∀ a, item 0 t = .ok a → den a t) := by
  by_cases hne : tokens = []
  · simp [hne, storeItems, takeItems]
  · simp only [storeItems_true_iff hconst old hne, hne, ne_eq, not_false_eq_true, true_or, true_and]
    constructor
    · intro h hlen hall
      obtain ⟨items, hitems⟩ := exists_items hall
      exact (forall₂_den_iff hitems).mp (h items ⟨hlen, hitems⟩)
    · rintro h items ⟨hlen, hitems⟩
      refine (forall₂_den_iff hitems).mpr (h hlen fun t ht => ?_)
      obtain ⟨i, hi, rfl⟩ := List.getElem_of_mem ht
      have hi' : i < items.length := hitems.length_eq ▸ hi
      exact ⟨items[i], hitems.get hi' hi⟩

end Items

/-! ## One token -/

theorem boolItem_ok_iff (t : Str) (b : Bool) : boolItem 0 t = .ok b ↔ boolWord t = some b := by
  rw [boolItem]
  cases boolWord t <;> simp

theorem intItem_of_denotes {t : Str} {z : ℤ} (h : Denotes t z) :
    intItem 0 t = if -2 ^ 31 ≤ z ∧ z < 2 ^ 31 then .ok (Int32.ofInt z) else .reject := by
  rw [intItem, strtol_of_denotes h]
  by_cases hrange : -2 ^ 31 ≤ z ∧ z < 2 ^ 31
  · have hmax : ¬ z > longMax := by rw [longMax]; omega
    have hmin : ¬ z < longMin := by rw [longMin]; omega
    rw [if_pos hrange, if_neg hmax, if_neg hmin, if_neg]
    simp only [ne_eq, not_true_eq_false, false_or]
    omega
  · rw [if_neg hrange, if_pos]
    right
    split
    · exact Or.inl (by decide)
    · split
      · exact Or.inr (by decide)
      · dsimp only
        omega

theorem intItem_ok_iff {t : Str} (hne : t ≠ []) (i : Int32) :
    intItem 0 t = .ok i ↔ Denotes t i.toInt := by
  constructor
  · intro h
    have hrest : (strtol t).rest = [] := by
      by_contra hr
      rw [intItem, if_pos (Or.inl hr)] at h
      cases h
    obtain ⟨z, hz⟩ := denotes_of_strtol hne hrest
    rw [intItem_of_denotes hz] at h
    split_ifs at h with hrange
    cases h
    rwa [Int32.toInt_ofInt_of_le hrange.1 hrange.2]
  · intro hz
    rw [intItem_of_denotes hz, if_pos ⟨i.le_toInt, i.toInt_lt⟩, Int32.ofInt_toInt]

theorem uintItem_of_denotes {t : Str} {z : ℤ} (h : Denotes t z) :
    uintItem 0 t =
      if 0 ≤ z ∧ z < 2 ^ 32 ∨ -2 ^ 64 < z ∧ z < 2 ^ 32 - 2 ^ 64 then
        .ok (UInt32.ofNat (z % 2 ^ 64).toNat)
      else .reject := by
  rw [uintItem, strtoull_of_denotes h, ullongMax]
  by_cases hbig : z.natAbs > 2 ^ 64 - 1
  · rw [if_pos hbig, if_pos (by simp), if_neg (by omega)]
  · rw [if_neg hbig]
    by_cases hrange : 0 ≤ z ∧ z < 2 ^ 32 ∨ -2 ^ 64 < z ∧ z < 2 ^ 32 - 2 ^ 64
    · rw [if_pos hrange, if_neg]
      simp only [ne_eq, not_true_eq_false, false_or]
      omega
    · rw [if_neg hrange, if_pos]
      simp only [ne_eq, not_true_eq_false, false_or]
      omega

/-- **An unsigned token is taken** when it is in range or wraps into it. -/
theorem uintItem_taken_iff {t : Str} (hne : t ≠ []) :
    (∃ n, uintItem 0 t = .ok n) ↔ IntegerText .uint t ∨ Wraps t := by
  constructor
  · rintro ⟨n, h⟩
    have hrest : (strtoull t).rest = [] := by
      by_contra hr
      rw [uintItem, if_pos (Or.inl hr)] at h
      cases h
    obtain ⟨z, hz⟩ := denotes_of_strtoull hne hrest
    rw [uintItem_of_denotes hz] at h
    split_ifs at h with hrange
    exact hrange.imp (fun hr => ⟨z, hz, hr⟩) fun hr => ⟨z, hz, hr⟩
  · rintro (⟨z, hz, hrange⟩ | ⟨z, hz, hrange⟩)
    · exact ⟨_, by rw [uintItem_of_denotes hz, if_pos (Or.inl hrange)]⟩
    · exact ⟨_, by rw [uintItem_of_denotes hz, if_pos (Or.inr hrange)]⟩

/-- **The item is the number of the token** unless the token wraps. -/
theorem uintItem_right_iff {t : Str} (hne : t ≠ []) {n : UInt32} (h : uintItem 0 t = .ok n) :
    Denotes t n.toNat ↔ ¬ Wraps t := by
  constructor
  · rintro hn ⟨z, hz, -, hlt⟩
    have hz₀ := hn.unique hz
    omega
  · intro hno
    obtain ⟨z, hz, hlo, hhi⟩ := ((uintItem_taken_iff hne).mp ⟨n, h⟩).resolve_right hno
    rw [uintItem_of_denotes hz, if_pos (Or.inl ⟨hlo, hhi⟩)] at h
    cases h
    rw [UInt32.toNat_ofNat_of_lt' (by simp only [UInt32.size]; omega), Int.emod_eq_of_lt hlo (by omega),
      Int.toNat_of_nonneg hlo]
    exact hz

/-! ## The list -/

theorem ne_nil_of_mem_tokensOf {s t : Str} (h : t ∈ tokensOf s) : t ≠ [] := by
  have hne := (List.mem_filter.mp h).2
  simpa using hne

theorem parseListParam_inBrackets (env : Env F) (v : ListVar F) (text : Str) :
    parseListParam env v (inBrackets text) = tokenLoop env v (tokensOf text) := by
  have htext : ((inBrackets text).drop 1).dropLast = text := List.dropLast_concat
  rw [parseListParam, htext]
  exact if_pos rfl

theorem tokenLoop_right_iff {α : Type} (item : ℕ → Str → Item α) (mk : List α → ListVar F)
    {den : α → Str → Prop} {env : Env F} {old : List α} {tokens : List Str}
    (hconst : ∀ i t, item i t = item 0 t)
    (hloop : tokenLoop env (mk old) tokens
      = (mk (storeItems item old tokens).1, (storeItems item old tokens).2))
    (hlisted : ∀ items, Listed (mk items) tokens ↔ List.Forall₂ den items tokens) :
    (∀ v', tokenLoop env (mk old) tokens = (v', some true) → Listed v' tokens) ↔
      (tokens ≠ [] ∨ old = []) ∧
        (tokens.length ≤ listCap → (∀ t ∈ tokens, ∃ a, item 0 t = .ok a) →
          ∀ t ∈ tokens, ∀ a, item 0 t = .ok a → den a t) := by
  rw [← storeItems_right_iff hconst, hloop]
  generalize storeItems item old tokens = r
  obtain ⟨as, ret⟩ := r
  constructor
  · rintro h items heq
    cases heq
    exact (hlisted _).mp (h _ rfl)
  · rintro h v' heq
    cases heq
    exact (hlisted _).mpr (h _ rfl)

/-- **`ParseListParam` is right about a list exactly if** the text has a token or the
list is empty, and no unsigned token of a text that is taken wraps. -/
theorem list_right_iff (env : Env F) {v : ListVar F} (hv : v.Numeric) (text : Str) :
    ListRight env v text ↔ ListSafe v text := by
  have hsame : ListRight env v text ↔
      ∀ v', tokenLoop env v (tokensOf text) = (v', some true) → Listed v' (tokensOf text) := by
    simp only [ListRight, parseListParam_inBrackets]
    refine forall_congr' fun v' => forall_congr' fun h => and_iff_left fun text' ht => ?_
    rw [ht, h]
  rw [hsame, ListSafe]
  have hne : ∀ t ∈ tokensOf text, t ≠ [] := fun t ht => ne_nil_of_mem_tokensOf ht
  cases v with
  | bool old =>
    rw [tokenLoop_right_iff boolItem .bool (fun _ _ => rfl) rfl
      fun _ => Iff.rfl, ListVar.count, List.length_eq_zero_iff]
    refine and_congr_right fun _ => iff_of_true (fun _ _ t _ b hb => ?_) nofun
    exact (boolItem_ok_iff t b).mp hb
  | int old =>
    rw [tokenLoop_right_iff intItem .int (fun _ _ => rfl) rfl
      fun _ => Iff.rfl, ListVar.count, List.length_eq_zero_iff]
    refine and_congr_right fun _ => iff_of_true (fun _ _ t ht i hi => ?_) nofun
    exact (intItem_ok_iff (hne t ht) i).mp hi
  | uint old =>
    rw [tokenLoop_right_iff uintItem .uint (fun _ _ => rfl) rfl
      fun _ => Iff.rfl, ListVar.count, List.length_eq_zero_iff]
    refine and_congr_right fun _ => ?_
    constructor
    · rintro h - hlen ⟨w, hw, hwraps⟩
      by_contra hall
      -- then every token is taken, the one that wraps among them
      have htaken : ∀ t ∈ tokensOf text, ∃ n, uintItem 0 t = .ok n := by
        intro t ht
        rw [uintItem_taken_iff (hne t ht)]
        by_contra hno
        exact hall ⟨t, ht, not_or.mp hno⟩
      obtain ⟨n, hn⟩ := htaken w hw
      exact (uintItem_right_iff (hne w hw) hn).mp (h hlen htaken w hw n hn) hwraps
    · intro h hlen htaken t ht n hn
      refine (uintItem_right_iff (hne t ht) hn).mpr fun hwraps => ?_
      obtain ⟨u, hu, hout, hno⟩ := h rfl hlen ⟨t, ht, hwraps⟩
      exact ((uintItem_taken_iff (hne u hu)).mp (htaken u hu)).elim hout hno
  | _ => exact hv.elim

theorem list_right_iff_plist : ListRight noFloats (.int [7, 8]) "1, 2 -3".toList :=
  (list_right_iff noFloats (v := ListVar.int [7, 8]) trivial "1, 2 -3".toList).mpr
    ⟨Or.inl (by decide), nofun⟩

/-- `[]` leaves a count of 1, and `[-18446744073709551615]` is the item 1. -/
theorem lists_not_right :
    ¬ ListRight noFloats (.int [7]) [] ∧
      ¬ ListRight noFloats (.uint []) "-18446744073709551615".toList := by
  constructor
  · intro h
    obtain ⟨hlisted, -⟩ := h (.int [7]) rfl
    cases hlisted
  · intro h
    obtain ⟨hlisted, -⟩ := h (.uint [1]) (by rfl)
    have hnum : numeral "-18446744073709551615".toList
        = some (true, 18446744073709551615, []) := by decide
    have hz : Denotes "-18446744073709551615".toList (-18446744073709551615) :=
      denotes_iff.mpr ⟨true, 18446744073709551615, hnum, rfl⟩
    have htokens : tokensOf "-18446744073709551615".toList = ["-18446744073709551615".toList] := by
      decide
    rw [htokens] at hlisted
    obtain ⟨hone, -⟩ := List.forall₂_cons.mp hlisted
    exact absurd (hone.unique hz) (by decide)

end DataCommons.Params
