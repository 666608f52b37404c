import DataCommons.Lib.Tokens
import DataCommons.Params.Single

/-!
# Saving and reading back a list

A list of booleans or integers is written with commas between its items and the
bracket behind the last one.  The parser takes at most `listCap` items, finds no
bracket in the line of an empty list, and refuses the sign that `%d` gives a large
unsigned item.

* `tokensOf_join`: the tokens are the printed items;
* `takeItems_ok`, `takeItems_all`: the token loop takes all items exactly if they are
  few and each is read back;
* `list_restores_iff`: the condition under which the whole list comes back.
-/

namespace DataCommons.Params

open CString

variable {F : Type}

namespace ListVar

def count : ListVar F → ℕ
  | .bool items => items.length
  | .uint items => items.length
  | .int items => items.length
  | .float items => items.length
  | .str items _ => items.length
  | .other n => n

/-- Element type `PARAM_BOOL`, `PARAM_UINT` or `PARAM_INT`. -/
def Numeric : ListVar F → Prop
  | .bool _ => True
  | .uint _ => True
  | .int _ => True
  | _ => False

/-- Unsigned items are printed without a sign. -/
def Unsigned : ListVar F → Prop
  | .uint items => ∀ n ∈ items, n.toNat < 2 ^ 31
  | _ => True

def texts : ListVar F → List Str
  | .bool items => items.map boolText
  | .uint items => items.map showUint
  | .int items => items.map fun i => showInt i.toInt
  | _ => []

/-- The characters of the items with the comma or bracket behind each. -/
def width (l : ListVar F) : ℕ := (l.texts.map fun text => text.length + 1).sum

/-- The list of the same type without items. -/
def cleared : ListVar F → ListVar F
  | .bool _ => .bool []
  | .uint _ => .uint []
  | .int _ => .int []
  | .float _ => .float []
  | .str _ bufs => .str [] bufs
  | .other _ => .other 0

end ListVar

/-! ## Printing -/

/-- A text that no separator of the line or the list can be found in. -/
structure Clean (t : Str) : Prop where
  ne : t ≠ []
  chars : ∀ c ∈ t, c ≠ '=' ∧ c ≠ '\n' ∧ c ≠ ',' ∧ c ≠ ' ' ∧ c ≠ ']'

theorem clean_boolText (b : Bool) : Clean (boolText b) := by
  have hall : ∀ t : Str, (t.all fun c => c ≠ '=' ∧ c ≠ '\n' ∧ c ≠ ',' ∧ c ≠ ' ' ∧ c ≠ ']') = true →
      ∀ c ∈ t, c ≠ '=' ∧ c ≠ '\n' ∧ c ≠ ',' ∧ c ≠ ' ' ∧ c ≠ ']' :=
    fun t h c hc => of_decide_eq_true (List.all_eq_true.mp h c hc)
  cases b with
  | false => exact ⟨by decide, hall _ (by decide)⟩
  | true => exact ⟨by decide, hall _ (by decide)⟩

theorem clean_showInt (i : ℤ) : Clean (showInt i) := by
  refine ⟨showInt_ne_nil i, fun c hc => ?_⟩
  rcases isDigit_or_sign_of_mem_showInt hc with hd | rfl
  · have hne : ∀ d : Char, d.isDigit = false → c ≠ d := by
      rintro d hd' rfl
      exact Bool.false_ne_true (hd'.symm.trans hd)
    exact ⟨hne _ rfl, hne _ rfl, hne _ rfl, hne _ rfl, hne _ rfl⟩
  · decide

theorem clean_of_mem_texts {l : ListVar F} {t : Str} (h : t ∈ l.texts) : Clean t := by
  cases l with
  | bool items =>
    obtain ⟨b, -, rfl⟩ := List.mem_map.mp h
    exact clean_boolText b
  | uint items =>
    obtain ⟨n, -, rfl⟩ := List.mem_map.mp h
    exact clean_showInt _
  | int items =>
    obtain ⟨i, -, rfl⟩ := List.mem_map.mp h
    exact clean_showInt _
  | _ => cases h

theorem texts_length {l : ListVar F} (hl : l.Numeric) : l.texts.length = l.count := by
  cases l <;> first | exact List.length_map _ | exact hl.elim

theorem saveList_eq {l : ListVar F} (hl : l.Numeric) (env : Env F) :
    saveList env l =
      if l.texts.isEmpty then [] else List.intercalate [','] l.texts ++ [']'] := by
  cases l with
  | bool items => simp only [saveList, saveItems, ListVar.texts, List.isEmpty_map]
  | uint items => simp only [saveList, saveItems, ListVar.texts, List.isEmpty_map]
  | int items => simp only [saveList, saveItems, ListVar.texts, List.isEmpty_map]
  | _ => exact hl.elim

/-! ## The tokens -/

theorem tokensOf_join {ts : List Str} (h : ∀ t ∈ ts, Clean t) :
    tokensOf (List.intercalate [','] ts) = ts :=
  strtok_intercalate (by decide) fun t ht =>
    ⟨(h t ht).ne, fun c hc => by simp [(h t ht).chars c hc]⟩

section Items

variable {α : Type} {item : ℕ → Str → Item α} {print : α → Str}

/-- Items that are read back are all taken while there is room. -/
theorem takeItems_ok {xs : List α} (hread : ∀ a ∈ xs, ∀ i, item i (print a) = .ok a) (idx : ℕ)
    (h : idx + xs.length ≤ listCap) : takeItems item idx (xs.map print) = (xs, some true) := by
  induction xs generalizing idx with
  | nil => rfl
  | cons a xs ih =>
    rw [List.length_cons] at h
    have hidx : ¬ idx ≥ listCap := by omega
    have hrest := ih (fun b hb => hread b (List.mem_cons_of_mem a hb)) (idx + 1) (by omega)
    simp only [List.map_cons, takeItems, if_neg hidx, hread a List.mem_cons_self, hrest]

/-- Where as many items are taken as there are tokens, there is room for them and
each is read. -/
theorem takeItems_all {idx : ℕ} {tokens : List Str}
    (h : (takeItems item idx tokens).1.length = tokens.length) :
    (tokens ≠ [] → idx + tokens.length ≤ listCap) ∧ ∀ t ∈ tokens, ∃ i a, item i t = .ok a := by
  induction tokens generalizing idx with
  | nil => exact ⟨fun h => absurd rfl h, by simp⟩
  | cons t tokens ih =>
    rw [takeItems] at h
    by_cases hidx : idx ≥ listCap
    · simp [hidx] at h
    · rw [if_neg hidx] at h
      cases ht : item idx t with
      | ok a =>
        simp only [ht, List.length_cons, Nat.add_right_cancel_iff] at h
        obtain ⟨hroom, hread⟩ := ih h
        refine ⟨fun _ => ?_, fun u hu => ?_⟩
        · rw [List.length_cons]
          by_cases hnil : tokens = []
          · rw [hnil, List.length_nil]
            omega
          · have := hroom hnil
            omega
        · rcases List.mem_cons.mp hu with rfl | hu
          · exact ⟨idx, a, ht⟩
          · exact hread u hu
      | reject => simp [ht] at h
      | undefined => simp [ht] at h

theorem storeItems_ok {xs : List α} (hread : ∀ a ∈ xs, ∀ i, item i (print a) = .ok a)
    (hlen : xs.length ≤ listCap) (hne : xs ≠ []) (old : List α) :
    storeItems item old (xs.map print) = (xs, some true) := by
  simp [storeItems, takeItems_ok hread 0 (by omega), hne]

/-- A cleared list gets all its items back only if there is room and each is read. -/
theorem storeItems_all {xs : List α} (hne : xs ≠ [])
    (h : (storeItems item [] (xs.map print)).1 = xs) :
    xs.length ≤ listCap ∧ ∀ a ∈ xs, ∃ i b, item i (print a) = .ok b := by
  have hall : (takeItems item 0 (xs.map print)).1.length = (xs.map print).length := by
    rw [storeItems] at h
    dsimp only at h
    split at h
    · exact absurd h.symm hne
    · rw [h, List.length_map]
  obtain ⟨hroom, hread⟩ := takeItems_all hall
  have hroom := hroom (by simpa using hne)
  rw [List.length_map] at hroom
  exact ⟨by omega, fun a ha => hread _ (List.mem_map_of_mem ha)⟩

end Items

/-! ## Reading one item back -/

theorem boolItem_boolText (i : ℕ) (b : Bool) : boolItem i (boolText b) = .ok b := by
  cases b <;> rfl

theorem intItem_showInt (i : ℕ) (n : Int32) : intItem i (showInt n.toInt) = .ok n := by
  have hlo := n.le_toInt
  have hhi := n.toInt_lt
  have hread : strtol (showInt n.toInt) = ⟨n.toInt, [], false⟩ :=
    strtol_showInt (le_trans (by decide) hlo) (le_trans hhi.le (by decide))
  rw [intItem, hread]
  dsimp only
  rw [if_neg (by simp only [ne_eq, not_true_eq_false, false_or]; omega), Int32.ofInt_toInt]

/-- **An unsigned item is read back exactly if it is printed without a sign.** -/
theorem uintItem_showUint (i : ℕ) (n : UInt32) :
    uintItem i (showUint n) = if n.toNat < 2 ^ 31 then .ok n else .reject := by
  have hn := n.toNat_lt
  have hval : n.toInt32.toInt = if n.toNat < 2 ^ 31 then (n.toNat : ℤ) else n.toNat - 2 ^ 32 := by
    have h : n.toInt32.toInt = n.toBitVec.toInt := rfl
    rw [h, BitVec.toInt_eq_toNat_cond]
    simp only [UInt32.toNat_toBitVec]
    split <;> split <;> omega
  rw [uintItem, showUint, strtoull_showInt (natAbs_toInt32 n)]
  dsimp only
  by_cases h : n.toNat < 2 ^ 31
  · rw [if_pos h] at hval
    rw [if_pos h, if_neg (by rw [hval]; simp only [ne_eq, not_true_eq_false, false_or]; omega),
      toInt_toInt32]
  · rw [if_neg h] at hval
    rw [if_neg h, if_pos (by rw [hval]; right; omega)]

/-! ## The list in its line -/

section List

variable {env : Env F} {l : ListVar F}

theorem tokenLoop_ok {l' : ListVar F} (hl : l.Numeric) (ht : l'.type = l.type) (hpos : 1 ≤ l.count)
    (hcap : l.count ≤ listCap) (hu : l.Unsigned) : tokenLoop env l' l.texts = (l, some true) := by
  have hne : ∀ {α : Type} {xs : List α}, 1 ≤ xs.length → xs ≠ [] :=
    fun h => List.length_pos_iff.mp h
  cases l with
  | bool items =>
    cases l' <;> cases ht
    simp only [tokenLoop, ListVar.texts,
      storeItems_ok (fun b _ i => boolItem_boolText i b) hcap (hne hpos)]
  | uint items =>
    cases l' <;> cases ht
    have hread : ∀ n ∈ items, ∀ i, uintItem i (showUint n) = .ok n := fun n hn i => by
      rw [uintItem_showUint, if_pos (hu n hn)]
    simp only [tokenLoop, ListVar.texts, storeItems_ok hread hcap (hne hpos)]
  | int items =>
    cases l' <;> cases ht
    have hread : ∀ n ∈ items, ∀ i, intItem i (showInt n.toInt) = .ok n :=
      fun n _ i => intItem_showInt i n
    simp only [tokenLoop, ListVar.texts,
      storeItems_ok hread hcap (hne hpos)]
  | _ => exact hl.elim

theorem tokenLoop_all (env : Env F) (hl : l.Numeric) (hpos : 1 ≤ l.count)
    (h : (tokenLoop env l.cleared l.texts).1 = l) : l.count ≤ listCap ∧ l.Unsigned := by
  have hne : ∀ {α : Type} {xs : List α}, 1 ≤ xs.length → xs ≠ [] :=
    fun h => List.length_pos_iff.mp h
  cases l with
  | bool items =>
    simp only [ListVar.cleared, ListVar.texts, tokenLoop, ListVar.bool.injEq] at h
    exact ⟨(storeItems_all (hne hpos) h).1, trivial⟩
  | uint items =>
    simp only [ListVar.cleared, ListVar.texts, tokenLoop, ListVar.uint.injEq] at h
    obtain ⟨hcap, hread⟩ := storeItems_all (hne hpos) h
    refine ⟨hcap, fun n hn => ?_⟩
    obtain ⟨i, b, hb⟩ := hread n hn
    by_contra hbig
    rw [uintItem_showUint, if_neg hbig] at hb
    cases hb
  | int items =>
    simp only [ListVar.cleared, ListVar.texts, tokenLoop, ListVar.int.injEq] at h
    exact ⟨(storeItems_all (hne hpos) h).1, trivial⟩
  | _ => exact hl.elim

theorem cleared_type (l : ListVar F) : l.cleared.type = l.type := by
  cases l <;> rfl

theorem mem_join {ts : List Str} (h : ∀ t ∈ ts, Clean t) {c : Char}
    (hc : c ∈ List.intercalate [','] ts) : c ≠ '=' ∧ c ≠ '\n' ∧ c ≠ ']' := by
  rcases mem_intercalate hc with rfl | ⟨t, ht, hc⟩
  · decide
  · have hchars := (h t ht).chars c hc
    exact ⟨hchars.1, hchars.2.1, hchars.2.2.2.2⟩

/-- The text between `=` and the newline has neither of them in it. -/
theorem listText_chars (hl : l.Numeric) {c : Char} (hc : c ∈ '[' :: saveList env l) :
    c ≠ '=' ∧ c ≠ '\n' := by
  rcases List.mem_cons.mp hc with rfl | hc
  · decide
  rw [saveList_eq hl] at hc
  split at hc
  · cases hc
  · rcases List.mem_append.mp hc with hc | hc
    · obtain ⟨h₁, h₂, -⟩ := mem_join (fun t => clean_of_mem_texts) hc
      exact ⟨h₁, h₂⟩
    · rw [List.mem_singleton.mp hc]
      decide

/-- The line of an empty list has no bracket that ends it. -/
theorem valueOf_empty {l' : ListVar F} (hl : l.Numeric) (hcount : l.count = 0) :
    valueOf (.list l') (('[' :: saveList env l ++ ['\n']).dropWhile (· = ' ')) = .undefined := by
  have htexts : l.texts = [] := List.length_eq_zero_iff.mp ((texts_length hl).trans hcount)
  rw [saveList_eq hl, htexts]
  rfl

theorem valueOf_list {l' : ListVar F} (hl : l.Numeric) (hpos : 1 ≤ l.count) :
    valueOf (.list l') (('[' :: saveList env l ++ ['\n']).dropWhile (· = ' '))
      = .value ('[' :: List.intercalate [','] l.texts ++ [']']) ['\n'] := by
  have htexts : l.texts.isEmpty = false := by
    rw [List.isEmpty_eq_false_iff, ← List.length_pos_iff, texts_length hl]
    exact hpos
  have hbr : ']' ∉ '[' :: List.intercalate [','] l.texts := by
    intro hm
    rcases List.mem_cons.mp hm with hm | hm
    · exact absurd hm (by decide)
    · exact (mem_join (fun t => clean_of_mem_texts) hm).2.2 rfl
  have hline : ('[' :: saveList env l ++ ['\n']).dropWhile (· = ' ')
      = ('[' :: List.intercalate [','] l.texts) ++ ']' :: ['\n'] := by
    rw [saveList_eq hl, htexts]
    simp only [Bool.false_eq_true, if_false, List.cons_append, List.append_assoc]
    rw [List.dropWhile_cons_of_neg (by decide)]
    rfl
  rw [hline, valueOf, cutAt_append hbr]
  rfl

theorem parseListParam_join {l' : ListVar F} :
    parseListParam env l' ('[' :: List.intercalate [','] l.texts ++ [']'])
      = tokenLoop env l' l.texts := by
  rw [parseListParam, List.cons_append, if_pos (by rfl), List.drop_succ_cons, List.drop_zero,
    List.dropLast_concat, tokensOf_join fun t => clean_of_mem_texts]

end List

theorem saveLine_list {env : Env F} {p : Param F} {l : ListVar F} (hv : p.var = .list l) :
    saveLine env p = p.name ++ '=' :: (('[' :: saveList env l) ++ ['\n']) := by
  rw [saveLine_eq, saveValue, hv]

theorem length_join (ts : List Str) (hne : ts ≠ []) :
    (List.intercalate [','] ts).length + 1 = (ts.map fun t => t.length + 1).sum := by
  induction ts with
  | nil => exact absurd rfl hne
  | cons t ts ih =>
    cases ts with
    | nil => simp
    | cons u ts =>
      have ih := ih (List.cons_ne_nil u ts)
      rw [List.intercalate_cons_cons, List.map_cons, List.sum_cons, ← ih]
      simp only [List.length_append, List.length_cons, List.length_nil]
      omega

theorem saveLine_list_length (env : Env F) {p : Param F} {l : ListVar F} (hv : p.var = .list l)
    (hl : l.Numeric) : (saveLine env p).length = p.name.length + l.width + 3 := by
  have hitems : (saveList env l).length = l.width := by
    rw [saveList_eq hl, ListVar.width]
    by_cases hne : l.texts = []
    · simp [hne]
    · simp only [List.isEmpty_eq_false_iff.mpr hne, Bool.false_eq_true, if_false,
        List.length_append, List.length_singleton, length_join l.texts hne]
  rw [saveLine_list hv]
  simp only [List.length_append, List.length_cons, List.length_nil, hitems]
  omega

/-- **A list that is emptied before the file is read stays wrong** if it was empty,
too long, or had a large unsigned item. -/
theorem not_restores_list {env : Env F} {c : ParamCtx F} {p : Param F} {l : ListVar F}
    {filename : Str} (hc : c.params = [p]) (hv : p.var = .list l) (hl : l.Numeric)
    (hname : Readable p.name) (hlen : (saveLine env p).length < nameSize)
    (hbad : ¬ (1 ≤ l.count ∧ l.count ≤ listCap ∧ l.Unsigned)) : ¬ Restores env c filename := by
  have hnl : '\n' ∉ '[' :: saveList env l := fun h => (listText_chars hl h).2 rfl
  have hq : Registered { p with var := .list l.cleared } p :=
    ⟨rfl, rfl, by simp only [Var.type, cleared_type, hv]⟩
  by_cases hpos : 1 ≤ l.count
  · refine not_restores_of_value hc (saveLine_list hv) hnl hname hlen hq (fun text e htext => ?_)
      (by rw [valueOf_list hl hpos]; simp)
    left
    rw [valueOf_list hl hpos] at htext
    cases htext
    rw [hv, assignVar, parseListParam_join]
    intro hback
    refine hbad ⟨hpos, tokenLoop_all env hl hpos ?_⟩
    split at hback <;> next heq => simpa only [heq, Var.list.injEq] using hback
  · have hzero : l.count = 0 := by omega
    refine not_restores_of_value hc (saveLine_list hv) hnl hname hlen hq (fun text e htext => ?_)
      (by rw [valueOf_empty hl hzero]; simp)
    rw [valueOf_empty hl hzero] at htext
    cases htext

/-- **A saved list comes back exactly if** its name can be read, its line fits `name`,
it has at least one and at most `listCap` items, and no unsigned item is printed with
a sign. -/
theorem list_restores_iff {env : Env F} {c : ParamCtx F} {p : Param F} {l : ListVar F}
    {filename : Str} (hc : c.params = [p]) (hv : p.var = .list l) (hl : l.Numeric)
    (htxt : (strstr filename ".txt".toList).isSome) :
    Restores env c filename ↔
      Readable p.name ∧ p.name.length + l.width + 3 < nameSize ∧ 1 ≤ l.count ∧
        l.count ≤ listCap ∧ l.Unsigned := by
  rw [← saveLine_list_length env hv hl]
  have heq : '=' ∉ '[' :: saveList env l := fun h => (listText_chars hl h).1 rfl
  have hnl : '\n' ∉ '[' :: saveList env l := fun h => (listText_chars hl h).2 rfl
  constructor
  · intro h
    have hline : Readable p.name ∧ (saveLine env p).length < nameSize := by
      by_contra hbad
      exact not_restores hc (saveLine_list hv) heq hnl hbad h
    refine ⟨hline.1, hline.2, ?_⟩
    by_contra hbad
    exact not_restores_list hc hv hl hline.1 hline.2 hbad h
  · rintro ⟨hname, hlen, hpos, hcap, hu⟩
    have hrefuse : refusesSave p = false := by
      rw [refusesSave, hv]
      cases l <;> first | rfl | exact hl.elim
    refine restores_of_value hc hrefuse (saveLine_list hv) hnl hname hlen htxt fun q hq => ?_
    have hqt := hq.type
    cases hqv : q.var with
    | list l' =>
      rw [hqv, hv] at hqt
      have ht : l'.type = l.type := VarType.list.inj hqt
      refine ⟨_, _, valueOf_list hl hpos, ?_⟩
      simp only [assignVar, parseListParam_join, tokenLoop_ok hl ht hpos hcap hu, hv]
    | _ =>
      rw [hqv, hv] at hqt
      cases hqt

def oneList (l : ListVar Unit) : ParamCtx Unit :=
  ⟨[⟨"PLIST".toList, "a list".toList, true, false, .list l⟩], .noError⟩

theorem list_restores_iff_two :
    Restores noFloats (oneList (.int [-5, 7])) "params.txt".toList :=
  (list_restores_iff (l := .int [-5, 7]) rfl rfl trivial (by decide)).mpr
    ⟨readable_of_all (by decide) (by decide), by decide, by decide, by decide, trivial⟩

/-- The empty list, a list of 33 items and the item 4294967295 do not come back. -/
theorem lists_lost :
    ¬ Restores noFloats (oneList (.int [])) "params.txt".toList ∧
      ¬ Restores noFloats (oneList (.int (List.replicate 33 1))) "params.txt".toList ∧
      ¬ Restores noFloats (oneList (.uint [4294967295])) "params.txt".toList :=
  have hname : Readable "PLIST".toList := readable_of_all (by decide) (by decide)
  ⟨not_restores_list rfl rfl trivial hname (by decide) fun h => absurd h.1 (by decide),
    not_restores_list rfl rfl trivial hname (by decide) fun h => absurd h.2.1 (by decide),
    not_restores_list rfl rfl trivial hname (by decide) fun h =>
      absurd (h.2.2 4294967295 List.mem_cons_self) (by decide)⟩

end DataCommons.Params
