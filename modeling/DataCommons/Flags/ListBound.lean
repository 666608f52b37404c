import DataCommons.Lib.Machine
import DataCommons.Flags.Spelling

/-!
# The items of a list flag

`flag_list_append` writes at the index `count` and never looks at
`FLAG_LIST_INIT_CAP`.  `callAppends` lists what a call appends, the position of the
flag and the index written, up to the first write past the items; `occurrences`
counts in the arguments alone what a call gives to a list.

* `loopRound_effect`: what a round appends are its occurrences;
* `loopAppends_inBounds`, `parseLoop_grown`: the same for the loop, as long as
  there is room;
* `callSafe_iff`: one call;
* `list_bound_iff`: any number of calls.
-/

namespace DataCommons.Flags

variable {F D : Type}

/-! ## What is appended -/

def FlagVal.items : FlagVal F D → List Str
  | .list items => items
  | _ => []

/-- How many items the flag at position `i` holds. -/
def held (flags : List (Flag F D)) (i : ℕ) : ℕ :=
  match flags[i]? with
  | some f => f.val.items.length
  | none => 0

/-- What the case of the `switch` appends to the flag at position `i`. -/
def caseAppends (i : ℕ) (ignore : Bool) : FlagVal F D → List (ℕ × ℕ)
  | .list items => if ignore then [] else [(i, items.length)]
  | _ => []

/-- What the loop over the flags appends; `i` is the position of the first of them. -/
def matchAppends (lib : FloatLib F D) (name : Str) (ignore : Bool) (equals : Option Str) :
    ℕ → List (Flag F D) → List Str → List (ℕ × ℕ)
  | _, [], _ => []
  | i, f :: fs, args =>
    if f.name = name then
      match fetchArg equals args with
      | none => []
      | some (arg, args) =>
        caseAppends i ignore f.val ++
          match flagStore lib ignore arg f.val with
          | some (.ok _) => matchAppends lib name ignore equals (i + 1) fs args
          | _ => []
    else matchAppends lib name ignore equals (i + 1) fs args

def roundAppends (lib : FloatLib F D) (c : FlagCtx F D) : List Str → List (ℕ × ℕ)
  | [] => []
  | tok :: args =>
    match readToken tok with
    | none => []
    | some (name, ignore, equals) =>
      if IsHelp name then [] else matchAppends lib name ignore equals 0 c.flags args

def loopAppends (lib : FloatLib F D) : ℕ → FlagCtx F D → List Str → List (ℕ × ℕ)
  | 0, _, _ => []
  | n + 1, c, args =>
    roundAppends lib c args ++
      match loopRound lib c args with
      | .next c args => loopAppends lib n c args
      | _ => []

def callAppends (lib : FloatLib F D) (c : FlagCtx F D) (argv : List Str) : List (ℕ × ℕ) :=
  loopAppends lib (argsOf c argv).length (started c argv) (argsOf c argv)

/-! ## One case -/

theorem no_overrun_nil : ¬ ∃ w ∈ ([] : List (ℕ × ℕ)), flagListInitCap ≤ w.2 := by
  rintro ⟨w, hw, -⟩
  cases hw

/-- The case of the `switch`: it goes wrong when the index is too large, and
otherwise the list has grown by what was appended. -/
theorem caseAppends_spec (lib : FloatLib F D) (i : ℕ) (ignore : Bool) (arg : Str)
    (v : FlagVal F D) :
    (flagStore lib ignore arg v = none ↔
      ∃ w ∈ caseAppends i ignore v, flagListInitCap ≤ w.2) ∧
    (∀ e, flagStore lib ignore arg v = some (.error e) → caseAppends i ignore v = []) ∧
    ∀ v', flagStore lib ignore arg v = some (.ok v') →
      v'.items.length = v.items.length + (caseAppends i ignore v).length := by
  cases v with
  | list items =>
    cases ignore with
    | true =>
      refine ⟨⟨fun h => (by cases h), fun h => absurd h no_overrun_nil⟩, fun _ _ => rfl, ?_⟩
      intro v' h
      cases h
      rfl
    | false =>
      have happ : flagStore lib false arg (.list items) =
          (flagListAppend items arg).map fun l => .ok (.list l) := rfl
      rw [happ, caseAppends, if_neg Bool.false_ne_true, flagListAppend]
      by_cases hlt : items.length < flagListInitCap
      · rw [if_pos hlt]
        refine ⟨⟨fun h => (by cases h), ?_⟩, fun e h => (by cases h), fun v' h => ?_⟩
        · rintro ⟨w, hw, hle⟩
          cases List.mem_singleton.mp hw
          exact absurd hlt (Nat.not_lt.mpr hle)
        · cases h
          simp [FlagVal.items]
      · rw [if_neg hlt]
        refine ⟨⟨fun _ => ⟨_, List.mem_cons_self, Nat.le_of_not_lt hlt⟩, fun _ => rfl⟩,
          fun e h => (by cases h), fun v' h => (by cases h)⟩
  | str s =>
    refine ⟨⟨fun h => (by cases h), fun h => absurd h no_overrun_nil⟩, fun _ _ => rfl, ?_⟩
    intro v' h
    cases h
    rfl
  | _ =>
    refine ⟨⟨fun h => (by cases h), fun h => absurd h no_overrun_nil⟩, fun _ _ => rfl, ?_⟩
    intro v' h
    obtain ⟨a, -, rfl⟩ := map_ok_iff.mp (Option.some.inj h)
    rfl

theorem caseAppends_eq (i : ℕ) (ignore : Bool) (v : FlagVal F D) :
    caseAppends i ignore v = [] ∨ caseAppends i ignore v = [(i, v.items.length)] := by
  cases v with
  | list items => cases ignore <;> simp [caseAppends, FlagVal.items]
  | _ => exact Or.inl rfl

/-! ## One round -/

theorem held_cons_zero (f : Flag F D) (fs : List (Flag F D)) :
    held (f :: fs) 0 = f.val.items.length := rfl

theorem held_cons_succ (f : Flag F D) (fs : List (Flag F D)) (j : ℕ) :
    held (f :: fs) (j + 1) = held fs j := rfl

/-- An item is written at the count of its list. -/
theorem matchAppends_index {lib : FloatLib F D} {name : Str} {ignore : Bool}
    {equals : Option Str} {i : ℕ} {flags : List (Flag F D)} {args : List Str} {w : ℕ × ℕ}
    (h : w ∈ matchAppends lib name ignore equals i flags args) :
    ∃ j, w.1 = i + j ∧ w.2 = held flags j := by
  induction flags generalizing i args with
  | nil => cases h
  | cons f fs ih =>
    have hrest : ∀ args, w ∈ matchAppends lib name ignore equals (i + 1) fs args →
        ∃ j, w.1 = i + j ∧ w.2 = held (f :: fs) j := by
      intro args h
      obtain ⟨j, hpos, hidx⟩ := ih h
      exact ⟨j + 1, by omega, hidx⟩
    rw [matchAppends] at h
    split at h
    · split at h
      · cases h
      · rcases List.mem_append.mp h with h | h
        · rcases caseAppends_eq i ignore f.val with hc | hc <;> rw [hc] at h
          · cases h
          · cases List.mem_singleton.mp h
            exact ⟨0, rfl, rfl⟩
        · split at h
          · exact hrest _ h
          · cases h
    · exact hrest _ h

/-- Behind position `i` nothing is appended to the flag at `i`. -/
theorem matchAppends_later (lib : FloatLib F D) (name : Str) (ignore : Bool) (equals : Option Str)
    (i : ℕ) (flags : List (Flag F D)) (args : List Str) :
    ((matchAppends lib name ignore equals (i + 1) flags args).map (·.1)).count i = 0 := by
  rw [List.count_eq_zero, List.mem_map]
  rintro ⟨w, hw, hpos⟩
  obtain ⟨j, hj, -⟩ := matchAppends_index hw
  omega

theorem caseAppends_count_self (i : ℕ) (ignore : Bool) (v : FlagVal F D) :
    ((caseAppends i ignore v).map (·.1)).count i = (caseAppends i ignore v).length := by
  rcases caseAppends_eq i ignore v with h | h <;> simp [h]

theorem caseAppends_count_ne {i j : ℕ} (hij : i ≠ j) (ignore : Bool) (v : FlagVal F D) :
    ((caseAppends i ignore v).map (·.1)).count j = 0 := by
  rcases caseAppends_eq i ignore v with h | h <;> simp [h, hij]

/-- Each list has grown by what was appended to it. -/
theorem matchFlags_held {lib : FloatLib F D} {name : Str} {ignore : Bool} {equals : Option Str}
    {flags : List (Flag F D)} {args : List Str} {m : Matched F D}
    (h : matchFlags lib name ignore equals flags args = some m) (i j : ℕ) :
    held m.flags j = held flags j +
      ((matchAppends lib name ignore equals i flags args).map (·.1)).count (i + j) := by
  induction flags generalizing i j args m with
  | nil =>
    cases h
    rfl
  | cons f fs ih =>
    rw [matchAppends]
    cases matchFlags_cons h with
    | other hname hrest =>
      rw [if_neg hname]
      cases j with
      | zero =>
        rw [held_cons_zero, held_cons_zero, Nat.add_zero, matchAppends_later]
        rfl
      | succ j =>
        rw [held_cons_succ, held_cons_succ, ih hrest (i + 1) j,
          show i + 1 + j = i + (j + 1) by omega]
    | missing hname hfetch =>
      rw [if_pos hname, hfetch]
      rfl
    | refused hname hfetch hstore =>
      rw [if_pos hname, hfetch]
      dsimp only
      rw [hstore, (caseAppends_spec lib i ignore _ f.val).2.1 _ hstore]
      rfl
    | stored hname hfetch hstore hrest =>
      rw [if_pos hname, hfetch]
      dsimp only
      rw [hstore, List.map_append, List.count_append]
      dsimp only
      cases j with
      | zero =>
        rw [held_cons_zero, held_cons_zero, Nat.add_zero, caseAppends_count_self,
          matchAppends_later, (caseAppends_spec lib i ignore _ f.val).2.2 _ hstore]
        rfl
      | succ j =>
        rw [held_cons_succ, held_cons_succ, caseAppends_count_ne (by omega), ih hrest (i + 1) j,
          Nat.zero_add, show i + 1 + j = i + (j + 1) by omega]

/-- The loop over the flags goes wrong exactly where an index is too large. -/
theorem matchFlags_overrun (lib : FloatLib F D) (name : Str) (ignore : Bool)
    (equals : Option Str) (i : ℕ) (flags : List (Flag F D)) (args : List Str) :
    matchFlags lib name ignore equals flags args = none ↔
      ∃ w ∈ matchAppends lib name ignore equals i flags args, flagListInitCap ≤ w.2 := by
  induction flags generalizing i args with
  | nil => exact ⟨fun h => (by cases h), fun h => absurd h no_overrun_nil⟩
  | cons f fs ih =>
    rw [matchFlags, matchAppends]
    by_cases hname : f.name = name
    · rw [if_pos hname, if_pos hname]
      cases fetchArg equals args with
      | none => exact ⟨fun h => (by cases h), fun h => absurd h no_overrun_nil⟩
      | some t =>
        obtain ⟨arg, args'⟩ := t
        dsimp only
        obtain ⟨hnone, herror, -⟩ := caseAppends_spec lib i ignore arg f.val
        cases hstore : flagStore lib ignore arg f.val with
        | none =>
          obtain ⟨w, hw, hle⟩ := hnone.mp hstore
          exact ⟨fun _ => ⟨w, List.mem_append_left _ hw, hle⟩, fun _ => rfl⟩
        | some r =>
          cases r with
          | error e =>
            rw [herror e hstore]
            exact ⟨fun h => (by cases h), fun h => absurd h no_overrun_nil⟩
          | ok v =>
            have hcase : ∀ w ∈ caseAppends i ignore f.val, ¬ flagListInitCap ≤ w.2 := by
              intro w hw hle
              cases hstore.symm.trans (hnone.mpr ⟨w, hw, hle⟩)
            dsimp only
            have hrest := ih (i + 1) args'
            cases hm : matchFlags lib name ignore equals fs args' with
            | none =>
              obtain ⟨w, hw, hle⟩ := hrest.mp hm
              exact ⟨fun _ => ⟨w, List.mem_append_right _ hw, hle⟩, fun _ => rfl⟩
            | some m =>
              refine ⟨fun h => (by cases h), ?_⟩
              rintro ⟨w, hw, hle⟩
              rcases List.mem_append.mp hw with hw | hw
              · exact absurd hle (hcase w hw)
              · cases hm.symm.trans (hrest.mpr ⟨w, hw, hle⟩)
    · rw [if_neg hname, if_neg hname, ← ih (i + 1) args]
      cases matchFlags lib name ignore equals fs args with
      | none => exact Iff.rfl
      | some m => exact ⟨fun h => (by cases h), fun h => (by cases h)⟩

/-! ## The occurrences in the arguments -/

/-- The list that an option without `/` would be appended to. -/
def caseOccurs (i : ℕ) (ignore : Bool) (v : FlagVal F D) : List ℕ :=
  if v.type = .list ∧ ignore = false then [i] else []

/-- The lists that an option of this name would be appended to, by position, and the
arguments behind its values, unless one of these is missing or refused.  What the
flags hold does not matter. -/
def matchOccurs (lib : FloatLib F D) (name : Str) (ignore : Bool) (equals : Option Str) :
    ℕ → List (Flag F D) → List Str → List ℕ × Option (List Str)
  | _, [], args => ([], some args)
  | i, f :: fs, args =>
    if f.name = name then
      match fetchArg equals args with
      | none => ([], none)
      | some (arg, args) =>
        match caseError lib ignore arg f.val with
        | some _ => ([], none)
        | none =>
          (caseOccurs i ignore f.val ++ (matchOccurs lib name ignore equals (i + 1) fs args).1,
            (matchOccurs lib name ignore equals (i + 1) fs args).2)
    else matchOccurs lib name ignore equals (i + 1) fs args

def roundOccurs (lib : FloatLib F D) (flags : List (Flag F D)) :
    List Str → List ℕ × Option (List Str)
  | [] => ([], none)
  | tok :: args =>
    match readToken tok with
    | none => ([], none)
    | some (name, ignore, equals) =>
      if IsHelp name then ([], none)
      else
        ((matchOccurs lib name ignore equals 0 flags args).1,
          if flags.any (·.name = name) then (matchOccurs lib name ignore equals 0 flags args).2
          else none)

def loopOccurs (lib : FloatLib F D) (flags : List (Flag F D)) : ℕ → List Str → List ℕ
  | 0, _ => []
  | n + 1, args =>
    (roundOccurs lib flags args).1 ++
      match (roundOccurs lib flags args).2 with
      | none => []
      | some args => loopOccurs lib flags n args

/-- How often the arguments give an item to the flag at position `i`, up to the
first option that is refused. -/
def occurrences (lib : FloatLib F D) (c : FlagCtx F D) (argv : List Str) (i : ℕ) : ℕ :=
  (loopOccurs lib c.flags (argsOf c argv).length (argsOf c argv)).count i

def Alike (fs gs : List (Flag F D)) : Prop :=
  List.Forall₂ (fun f g => f.name = g.name ∧ f.val.type = g.val.type) fs gs

theorem Alike.refl (fs : List (Flag F D)) : Alike fs fs :=
  List.forall₂_same.mpr fun _ _ => ⟨rfl, rfl⟩

theorem Alike.any_name {fs gs : List (Flag F D)} (h : Alike fs gs) (name : Str) :
    fs.any (·.name = name) = gs.any (·.name = name) := by
  induction h with
  | nil => rfl
  | cons hfg _ ih => rw [List.any_cons, List.any_cons, ih, hfg.1]

theorem caseError_of_ne_error {lib : FloatLib F D} {ignore : Bool} {arg : Str} {v : FlagVal F D}
    (h : ∀ e, flagStore lib ignore arg v ≠ some (.error e)) : caseError lib ignore arg v = none := by
  unfold caseError
  split
  · rename_i e he
    exact absurd he (h e)
  · rfl

theorem caseAppends_positions (i : ℕ) (ignore : Bool) (v : FlagVal F D) :
    (caseAppends i ignore v).map (·.1) = caseOccurs i ignore v := by
  cases v with
  | list items => cases ignore <;> rfl
  | _ => rfl

theorem caseOccurs_congr {v v' : FlagVal F D} (h : v.type = v'.type) (i : ℕ) (ignore : Bool) :
    caseOccurs i ignore v = caseOccurs i ignore v' := by
  rw [caseOccurs, caseOccurs, h]

theorem matchAppends_initial (lib : FloatLib F D) (name : Str) (ignore : Bool)
    (equals : Option Str) {fs gs : List (Flag F D)} (h : Alike fs gs) (i : ℕ) (args : List Str) :
    (matchAppends lib name ignore equals i fs args).map (·.1) <+:
      (matchOccurs lib name ignore equals i gs args).1 := by
  induction h generalizing i args with
  | nil => exact List.prefix_refl _
  | @cons f g fs gs hfg _ ih =>
    obtain ⟨hname, htype⟩ := hfg
    rw [matchAppends, matchOccurs, hname]
    split
    · split
      · exact List.prefix_refl _
      · rename_i arg args' _
        rw [← caseError_congr lib ignore arg htype, ← caseOccurs_congr htype, List.map_append,
          caseAppends_positions]
        cases hstore : flagStore lib ignore arg f.val with
        | none =>
          rw [caseError_of_ne_error (by simp [hstore])]
          exact List.prefix_append_right_inj _ |>.mpr List.nil_prefix
        | some r =>
          cases r with
          | error e =>
            rw [← caseAppends_positions, (caseAppends_spec lib i ignore arg f.val).2.1 e hstore]
            exact List.nil_prefix
          | ok v =>
            rw [caseError_of_ne_error (by simp [hstore])]
            exact List.prefix_append_right_inj _ |>.mpr (ih (i + 1) args')
    · exact ih (i + 1) args

/-- Where nothing goes wrong, the occurrences are what is appended. -/
theorem matchFlags_occurs {lib : FloatLib F D} {name : Str} {ignore : Bool}
    {equals : Option Str} {fs gs : List (Flag F D)} (halike : Alike fs gs) {args : List Str}
    {m : Matched F D} (h : matchFlags lib name ignore equals fs args = some m) (i : ℕ) :
    Alike m.flags gs ∧
    (matchOccurs lib name ignore equals i gs args).1 =
      (matchAppends lib name ignore equals i fs args).map (·.1) ∧
    (∀ e, m.err = some e → (matchOccurs lib name ignore equals i gs args).2 = none) ∧
    (m.err = none → (matchOccurs lib name ignore equals i gs args).2 = some m.args ∧
      m.found = fs.any (·.name = name)) := by
  induction halike generalizing i args m with
  | nil =>
    cases h
    exact ⟨.nil, rfl, fun e he => (by cases he), fun _ => ⟨rfl, rfl⟩⟩
  | @cons f g fs gs hfg hrest ih =>
    obtain ⟨hname, htype⟩ := hfg
    rw [matchAppends, matchOccurs, ← hname]
    cases matchFlags_cons h with
    | other hmatch hm =>
      obtain ⟨halike, hocc, hbad, hgood⟩ := ih hm (i + 1)
      rw [if_neg hmatch, if_neg hmatch]
      refine ⟨.cons ⟨hname, htype⟩ halike, hocc, hbad, fun he => ⟨(hgood he).1, ?_⟩⟩
      simp [hmatch, (hgood he).2]
    | missing hmatch hfetch =>
      rw [if_pos hmatch, if_pos hmatch, hfetch]
      exact ⟨.cons ⟨hname, htype⟩ hrest, rfl, fun e _ => rfl, fun he => (by cases he)⟩
    | refused hmatch hfetch hstore =>
      rw [if_pos hmatch, if_pos hmatch, hfetch]
      dsimp only
      rw [← caseError_congr lib ignore _ htype, hstore, caseError, hstore,
        (caseAppends_spec lib i ignore _ f.val).2.1 _ hstore]
      exact ⟨.cons ⟨hname, htype⟩ hrest, rfl, fun e _ => rfl, fun he => (by cases he)⟩
    | stored hmatch hfetch hstore hm =>
      obtain ⟨halike, hocc, hbad, hgood⟩ := ih hm (i + 1)
      rw [if_pos hmatch, if_pos hmatch, hfetch]
      dsimp only
      rw [← caseError_congr lib ignore _ htype, ← caseOccurs_congr htype, hstore,
        caseError_of_ne_error (by simp [hstore])]
      dsimp only
      refine ⟨.cons ⟨hname, (flagStore_type hstore).trans htype⟩ halike, ?_, hbad,
        fun he => ⟨(hgood he).1, ?_⟩⟩
      · rw [hocc, List.map_append, caseAppends_positions]
      · simp [hmatch]

/-! ## One round -/

/-- Each list has as many items more as were appended to it. -/
def Grown (flags flags' : List (Flag F D)) (occs : List ℕ) : Prop :=
  ∀ j, held flags' j = held flags j + occs.count j

theorem Grown.nil (flags : List (Flag F D)) : Grown flags flags [] := fun _ => rfl

/-- What a round leaves when `ws` is appended and `occs` are the occurrences. -/
inductive Effect (flags gs : List (Flag F D)) (ws : List (ℕ × ℕ)) :
    List ℕ × Option (List Str) → Round F D → Prop
  | next {c' : FlagCtx F D} {args' : List Str} (hgrown : Grown flags c'.flags (ws.map (·.1)))
      (halike : Alike c'.flags gs) : Effect flags gs ws (ws.map (·.1), some args') (.next c' args')
  | reject {c' : FlagCtx F D} (hgrown : Grown flags c'.flags (ws.map (·.1))) :
      Effect flags gs ws (ws.map (·.1), none) (.reject c')
  | help (hws : ws = []) : Effect flags gs ws ([], none) .help
  | stop (hws : ws = []) : Effect flags gs ws ([], none) .stop
  | overrun {occs : List ℕ × Option (List Str)} (hinitial : ws.map (·.1) <+: occs.1) :
      Effect flags gs ws occs .overrun

theorem loopRound_effect (lib : FloatLib F D) {c : FlagCtx F D} {gs : List (Flag F D)}
    (halike : Alike c.flags gs) (args : List Str) :
    Effect c.flags gs (roundAppends lib c args) (roundOccurs lib gs args) (loopRound lib c args) := by
  cases args with
  | nil => exact .stop rfl
  | cons tok args =>
    rw [roundAppends, roundOccurs, loopRound]
    cases readToken tok with
    | none => exact .stop rfl
    | some t =>
      obtain ⟨name, ignore, equals⟩ := t
      dsimp only
      by_cases hhelp : IsHelp name
      · rw [if_pos hhelp, if_pos hhelp, if_pos hhelp]
        exact .help rfl
      · rw [if_neg hhelp, if_neg hhelp, if_neg hhelp]
        cases hm : matchFlags lib name ignore equals c.flags args with
        | none =>
          exact .overrun (matchAppends_initial lib name ignore equals halike 0 args)
        | some m =>
          have hgrown := matchFlags_held hm 0
          simp only [Nat.zero_add] at hgrown
          obtain ⟨halike', hocc, hbad, hgood⟩ := matchFlags_occurs halike hm 0
          rw [hocc]
          dsimp only
          cases herr : m.err with
          | some e =>
            rw [hbad e herr, ite_self]
            exact .reject hgrown
          | none =>
            obtain ⟨hargs, hfound⟩ := hgood herr
            rw [hargs, ← halike.any_name, ← hfound]
            dsimp only
            split
            · exact .next hgrown halike'
            · exact .reject hgrown

/-- A round goes wrong exactly where an index is too large. -/
theorem loopRound_overrun {lib : FloatLib F D} {c : FlagCtx F D} {args : List Str} :
    loopRound lib c args = .overrun ↔ ∃ w ∈ roundAppends lib c args, flagListInitCap ≤ w.2 := by
  cases args with
  | nil => exact ⟨fun h => (by cases h), fun h => absurd h no_overrun_nil⟩
  | cons tok args =>
    rw [loopRound, roundAppends]
    cases readToken tok with
    | none => exact ⟨fun h => (by cases h), fun h => absurd h no_overrun_nil⟩
    | some t =>
      obtain ⟨name, ignore, equals⟩ := t
      dsimp only
      by_cases hhelp : IsHelp name
      · rw [if_pos hhelp, if_pos hhelp]
        exact ⟨fun h => (by cases h), fun h => absurd h no_overrun_nil⟩
      · rw [if_neg hhelp, if_neg hhelp, ← matchFlags_overrun]
        cases matchFlags lib name ignore equals c.flags args with
        | none => exact ⟨fun _ => rfl, fun _ => rfl⟩
        | some m =>
          refine ⟨fun h => ?_, fun h => (by cases h)⟩
          dsimp only at h
          split at h
          · cases h
          · split at h
            · cases h
            · cases h

theorem roundAppends_index {lib : FloatLib F D} {c : FlagCtx F D} {args : List Str} {w : ℕ × ℕ}
    (h : w ∈ roundAppends lib c args) : w.2 = held c.flags w.1 := by
  unfold roundAppends at h
  split at h
  · cases h
  · split at h
    · cases h
    · split at h
      · cases h
      · obtain ⟨j, hpos, hidx⟩ := matchAppends_index h
        rw [hidx, hpos, Nat.zero_add]

/-! ## The loop -/

theorem stopAt_flags (c : FlagCtx F D) (args : List Str) : (stopAt c args).1.flags = c.flags := by
  cases args with
  | nil =>
    obtain ⟨c', out, hend, -, hflags, -⟩ := parseEnd_spec c
    rw [stopAt, hend]
    exact hflags
  | cons tok args => rfl

/-- Room for the occurrences keeps every index in bounds. -/
theorem loopAppends_inBounds {lib : FloatLib F D} {n : ℕ} {c : FlagCtx F D}
    {gs : List (Flag F D)} {args : List Str} (halike : Alike c.flags gs)
    (hroom : ∀ i, held c.flags i + (loopOccurs lib gs n args).count i ≤ flagListInitCap) :
    ∀ w ∈ loopAppends lib n c args, w.2 < flagListInitCap := by
  induction n generalizing c args with
  | zero =>
    intro w hw
    cases hw
  | succ n ih =>
    intro w hw
    have heffect := loopRound_effect lib halike args
    rw [loopOccurs] at hroom
    rw [loopAppends] at hw
    generalize hocc : roundOccurs lib gs args = occs at heffect hroom
    generalize hround : loopRound lib c args = round at heffect hw
    have hhere : w ∈ roundAppends lib c args →
        (roundAppends lib c args).map (·.1) <+: occs.1 → w.2 < flagListInitCap := by
      intro hw hinitial
      have hpos := List.count_pos_iff.mpr (hinitial.subset (List.mem_map_of_mem hw))
      have hle := hroom w.1
      rw [List.count_append] at hle
      rw [roundAppends_index hw]
      omega
    rcases List.mem_append.mp hw with hnow | hlater
    · cases heffect with
      | overrun hinitial => exact hhere hnow hinitial
      | help hws =>
        rw [hws] at hnow
        cases hnow
      | stop hws =>
        rw [hws] at hnow
        cases hnow
      | _ => exact hhere hnow (List.prefix_refl _)
    · cases heffect with
      | next hgrown halike' =>
        refine ih halike' (fun i => ?_) w hlater
        have hle := hroom i
        rw [List.count_append] at hle
        rw [hgrown i]
        dsimp only at hle
        omega
      | _ => cases hlater

/-- With every index in bounds the loop comes to its end, and each list has grown by
its occurrences. -/
theorem parseLoop_grown {lib : FloatLib F D} {n : ℕ} {c : FlagCtx F D} {gs : List (Flag F D)}
    {args : List Str} (hn : args.length ≤ n) (halike : Alike c.flags gs)
    (hin : ∀ w ∈ loopAppends lib n c args, w.2 < flagListInitCap) :
    ∃ r, parseLoop lib n c args = some r ∧ Grown c.flags r.1.flags (loopOccurs lib gs n args) := by
  induction n generalizing c args with
  | zero =>
    obtain rfl := List.length_eq_zero_iff.mp (Nat.le_zero.mp hn)
    exact ⟨stopAt c [], rfl, by rw [stopAt_flags]; exact .nil _⟩
  | succ n ih =>
    have heffect := loopRound_effect lib halike args
    rw [parseLoop_round lib n c hn, loopOccurs]
    rw [loopAppends] at hin
    generalize hocc : roundOccurs lib gs args = occs at heffect
    generalize hround : loopRound lib c args = round at heffect hin
    cases heffect with
    | next hgrown halike' =>
      rename_i c' args'
      obtain ⟨tok, rest, rfl, hsuf⟩ := loopRound_suffix hround
      have hle : args'.length ≤ n := hsuf.length_le.trans (Nat.le_of_succ_le_succ hn)
      obtain ⟨r, hr, hrest⟩ := ih hle halike' fun w hw => hin w (List.mem_append_right _ hw)
      refine ⟨r, hr, fun j => ?_⟩
      rw [hrest j, hgrown j, List.count_append, Nat.add_assoc]
    | reject hgrown =>
      refine ⟨_, rfl, ?_⟩
      dsimp only
      rw [List.append_nil]
      exact hgrown
    | help hws => exact ⟨_, rfl, .nil _⟩
    | stop hws => exact ⟨_, rfl, by rw [stopAt_flags]; exact .nil _⟩
    | overrun _ =>
      obtain ⟨w, hw, hle⟩ := loopRound_overrun.mp hround
      exact absurd (hin w (List.mem_append_left _ hw)) (Nat.not_lt.mpr hle)

theorem parseLoop_overrun {lib : FloatLib F D} {n : ℕ} {c : FlagCtx F D} {args : List Str}
    (hn : args.length ≤ n) {w : ℕ × ℕ} (hw : w ∈ loopAppends lib n c args)
    (hle : flagListInitCap ≤ w.2) : parseLoop lib n c args = none := by
  induction n generalizing c args with
  | zero => cases hw
  | succ n ih =>
    rw [parseLoop_round lib n c hn]
    rw [loopAppends] at hw
    rcases List.mem_append.mp hw with hnow | hlater
    · rw [loopRound_overrun.mpr ⟨w, hnow, hle⟩]
    · cases hround : loopRound lib c args with
      | next c' args' =>
        rw [hround] at hlater
        obtain ⟨tok, rest, rfl, hsuf⟩ := loopRound_suffix hround
        exact ih (hsuf.length_le.trans (Nat.le_of_succ_le_succ hn)) hlater
      | overrun => rfl
      | _ =>
        rw [hround] at hlater
        cases hlater

/-! ## One call -/

/-- No list holds more items than there is room for. -/
def ListsFit (flags : List (Flag F D)) : Prop := ∀ i, held flags i ≤ flagListInitCap

/-- A call writes in bounds, leaves no list too long, and returns `false` when an
occurrence does not fit. -/
structure CallSafe (lib : FloatLib F D) (c : FlagCtx F D) (argv : List Str) : Prop where
  inBounds : ∀ w ∈ callAppends lib c argv, w.2 < flagListInitCap
  bounded : ∀ c' out r, flagParse lib c argv = some (c', out, r) → ListsFit c'.flags
  rejected : (∃ i, flagListInitCap < held c.flags i + occurrences lib c argv i) →
    ∃ c' out, flagParse lib c argv = some (c', out, false)

/-- Every list has room for its occurrences. -/
def CallFits (lib : FloatLib F D) (c : FlagCtx F D) (argv : List Str) : Prop :=
  ∀ i, held c.flags i + occurrences lib c argv i ≤ flagListInitCap

theorem started_alike (c : FlagCtx F D) (argv : List Str) : Alike (started c argv).flags c.flags := by
  rw [started_flags]
  exact .refl _

/-- A call writes out of bounds only if it comes to no end. -/
theorem flagParse_overrun {lib : FloatLib F D} {c : FlagCtx F D} {argv : List Str} {w : ℕ × ℕ}
    (hw : w ∈ callAppends lib c argv) (hle : flagListInitCap ≤ w.2) : flagParse lib c argv = none := by
  by_cases hprog : argv ≠ [] ∨ c.programName ≠ none
  · rw [flagParse_eq_loop lib hprog]
    exact parseLoop_overrun (Nat.le_refl _) hw hle
  · rw [not_or, not_not, not_not] at hprog
    obtain ⟨rfl, hnone⟩ := hprog
    rw [flagParse, hnone]

theorem flagParse_grown {lib : FloatLib F D} {c : FlagCtx F D} {argv : List Str}
    (hprog : argv ≠ [] ∨ c.programName ≠ none)
    (hin : ∀ w ∈ callAppends lib c argv, w.2 < flagListInitCap) :
    ∃ r, flagParse lib c argv = some r ∧
      ∀ i, held r.1.flags i = held c.flags i + occurrences lib c argv i := by
  obtain ⟨r, hr, hgrown⟩ := parseLoop_grown (Nat.le_refl _) (started_alike c argv) hin
  refine ⟨r, ?_, fun i => ?_⟩
  · rw [flagParse_eq_loop lib hprog]
    exact hr
  · rw [hgrown i, started_flags]
    rfl

theorem callSafe_iff (lib : FloatLib F D) {c : FlagCtx F D} (hfit : ListsFit c.flags)
    (argv : List Str) : CallSafe lib c argv ↔ CallFits lib c argv := by
  constructor
  · intro hsafe i
    by_cases hprog : argv ≠ [] ∨ c.programName ≠ none
    · obtain ⟨r, hr, hgrown⟩ := flagParse_grown hprog hsafe.inBounds
      rw [← hgrown i]
      exact hsafe.bounded r.1 r.2.1 r.2.2 hr i
    · -- there is no argument
      rw [not_or, not_not, not_not] at hprog
      obtain ⟨rfl, hnone⟩ := hprog
      rw [occurrences, argsOf, hnone]
      exact hfit i
  · intro hroom
    have hin : ∀ w ∈ callAppends lib c argv, w.2 < flagListInitCap := by
      refine loopAppends_inBounds (started_alike c argv) fun i => ?_
      rw [started_flags]
      exact hroom i
    have hnone_left : ¬ ∃ i, flagListInitCap < held c.flags i + occurrences lib c argv i := by
      rintro ⟨i, hi⟩
      exact absurd (hroom i) (Nat.not_le.mpr hi)
    refine ⟨hin, fun c' out r hr i => ?_, fun h => absurd h hnone_left⟩
    have hprog : argv ≠ [] ∨ c.programName ≠ none := by
      by_contra hnot
      rw [not_or, not_not, not_not] at hnot
      obtain ⟨rfl, hnone⟩ := hnot
      rw [flagParse, hnone] at hr
      cases hr
    obtain ⟨r', hr', hgrown⟩ := flagParse_grown hprog hin
    cases hr.symm.trans hr'
    rw [hgrown i]
    exact hroom i

/-! ## Many calls -/

/-- One call of a run: the context, and what the call returns. -/
def parseStep (lib : FloatLib F D) (c : FlagCtx F D) (argv : List Str) :
    Option (FlagCtx F D × Bool) :=
  (flagParse lib c argv).map fun r => (r.1, r.2.2)

/-- **The items of a list flag.**  Any number of calls write in bounds, and reject
what does not fit, if and only if at every call each list has room for its
occurrences: nothing else keeps them in bounds. -/
theorem list_bound_iff (lib : FloatLib F D) {c : FlagCtx F D} (hfit : ListsFit c.flags)
    (argvs : List (List Str)) :
    Machine.Along (parseStep lib) (CallSafe lib) c argvs ↔
      Machine.Along (parseStep lib) (CallFits lib) c argvs := by
  induction argvs generalizing c with
  | nil => exact Iff.rfl
  | cons argv argvs ih =>
    rw [Machine.Along, Machine.Along]
    have hcall := callSafe_iff lib hfit argv
    rw [← hcall]
    refine and_congr_right fun hsafe => forall_congr' fun c' => forall_congr' fun r =>
      imp_congr_right fun hstep => ?_
    obtain ⟨⟨c₁, out, r₁⟩, hparse, heq⟩ := Option.map_eq_some_iff.mp hstep
    cases heq
    exact ih (hsafe.bounded _ _ _ hparse)

def listFlag : FlagCtx Unit Unit :=
  { intFlags [] with flags := [⟨"l".toList, .list [], false, false⟩] }

theorem list_bound_iff_listFlag :
    Machine.Along (parseStep noFloat) (CallSafe noFloat) listFlag
        [["prog".toList, "-l=a".toList], ["-l".toList, "b".toList]] ↔
      Machine.Along (parseStep noFloat) (CallFits noFloat) listFlag
        [["prog".toList, "-l=a".toList], ["-l".toList, "b".toList]] :=
  list_bound_iff noFloat (by rintro (_ | i) <;> exact Nat.zero_le _) _

/-- A list that holds `m` items gets `k` more. -/
theorem loopAppends_replicate {n m k : ℕ} {c : FlagCtx Unit Unit} {changed : Bool}
    (hflags : c.flags = [⟨"l".toList, .list (List.replicate m "x".toList), false, changed⟩])
    (hn : k ≤ n) (hm : m ≤ flagListInitCap) (hk : flagListInitCap < m + k) :
    (0, flagListInitCap) ∈ loopAppends noFloat n c (List.replicate k "-l=x".toList) := by
  have htok : readToken "-l=x".toList = some ("l".toList, false, some "x".toList) := by decide
  have hhelp : ¬ IsHelp "l".toList := by decide
  induction n generalizing m k c changed with
  | zero => omega
  | succ n ih =>
    cases k with
    | zero => omega
    | succ k =>
      rw [loopAppends, List.replicate_succ, List.mem_append]
      rcases Nat.lt_or_eq_of_le hm with hlt | rfl
      · -- there is room for one item more
        have hround : loopRound noFloat c ("-l=x".toList :: List.replicate k "-l=x".toList) =
            .next { c with flags :=
              [⟨"l".toList, .list (List.replicate (m + 1) "x".toList), false, true⟩] }
              (List.replicate k "-l=x".toList) := by
          have hstore : flagStore noFloat false "x".toList
              (.list (List.replicate m "x".toList)) =
              some (.ok (.list (List.replicate (m + 1) "x".toList))) := by
            rw [flagStore, if_neg Bool.false_ne_true, flagListAppend, List.length_replicate,
              if_pos hlt, List.replicate_succ']
            rfl
          rw [loopRound, htok]
          dsimp only
          rw [if_neg hhelp, hflags, matchFlags, if_pos rfl, fetchArg]
          dsimp only
          rw [hstore, matchFlags]
          rfl
        right
        rw [hround]
        exact ih rfl (Nat.le_of_succ_le_succ hn) hlt (by omega)
      · left
        rw [roundAppends, htok]
        dsimp only
        rw [if_neg hhelp, hflags, matchAppends, if_pos rfl, fetchArg]
        dsimp only
        rw [caseAppends, if_neg Bool.false_ne_true, List.length_replicate]
        exact List.mem_append_left _ List.mem_cons_self

/-- `prog` with `-l=x` 1025 times writes behind the items. -/
theorem item_past_the_end :
    (0, flagListInitCap) ∈
      callAppends noFloat listFlag ("prog".toList :: List.replicate 1025 "-l=x".toList) ∧
    flagParse noFloat listFlag ("prog".toList :: List.replicate 1025 "-l=x".toList) = none ∧
    ¬ Machine.Along (parseStep noFloat) (CallSafe noFloat) listFlag
      ["prog".toList :: List.replicate 1025 "-l=x".toList] := by
  have hmem : (0, flagListInitCap) ∈
      callAppends noFloat listFlag ("prog".toList :: List.replicate 1025 "-l=x".toList) := by
    rw [callAppends]
    refine loopAppends_replicate (m := 0) (k := 1025) rfl ?_ (Nat.zero_le _) (by decide)
    exact Nat.le_of_eq List.length_replicate.symm
  exact ⟨hmem, flagParse_overrun hmem (Nat.le_refl _),
    fun h => Nat.lt_irrefl _ (h.1.inBounds _ hmem)⟩

end DataCommons.Flags
