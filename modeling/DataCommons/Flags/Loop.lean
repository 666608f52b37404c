import DataCommons.Flags.Parse

/-!
# The rounds of the parsing loop

`loopRound` is what one round of the `while` loop of `flag_parse` does, and
`Arrives` says which arguments the loop comes to, whatever names the flags have.

* `matchFlags_cons`: what the loop over the flags does at one of them;
* `loop_eq`: the loop is its rounds, and the bound on their number is no bound;
* `Arrives.change`: a round looks at no argument behind those that it takes;
* `flagParse_of_reaches`: a call is the loop from any point that it comes to.
-/

namespace DataCommons.Flags

variable {F D : Type}

inductive Round (F D : Type) where
  /-- Go on with the remaining arguments. -/
  | next (c : FlagCtx F D) (args : List Str)
  /-- Return `false`. -/
  | reject (c : FlagCtx F D)
  | help
  /-- No argument is left, or the first is no option. -/
  | stop
  /-- Write past the items of a list. -/
  | overrun

def loopRound (lib : FloatLib F D) (c : FlagCtx F D) : List Str → Round F D
  | [] => .stop
  | tok :: args =>
    match readToken tok with
    | none => .stop
    | some (name, ignore, equals) =>
      if IsHelp name then .help
      else
        match matchFlags lib name ignore equals c.flags args with
        | none => .overrun
        | some m =>
          match m.err with
          | some e => .reject { c with flags := m.flags, flagError := e, flagErrorName := some name }
          | none =>
            if m.found then .next { c with flags := m.flags } m.args
            else .reject { c with flags := m.flags, flagError := .unknown,
                                  flagErrorName := some name, flagErrorValue := some name }

/-- What a call that stops at these arguments leaves, prints and returns. -/
def stopAt (c : FlagCtx F D) (args : List Str) : FlagCtx F D × List FlagOut × Bool :=
  match args with
  | [] => parseEnd c
  | args => ({ c with restArgc := args.length, restArgv := args }, [], true)

def loop (lib : FloatLib F D) (c : FlagCtx F D) (args : List Str) :
    Option (FlagCtx F D × List FlagOut × Bool) :=
  parseLoop lib args.length c args

/-! ## The arguments that a round takes -/

theorem fetchArg_suffix {equals : Option Str} {args args' : List Str} {arg : Str}
    (h : fetchArg equals args = some (arg, args')) : args' <:+ args := by
  unfold fetchArg at h
  split at h
  · cases h
    exact List.suffix_refl _
  · split at h
    · cases h
    · cases h
      exact List.suffix_cons _ _

/-- What the loop over the flags does at one of them. -/
inductive Took (lib : FloatLib F D) (name : Str) (ignore : Bool) (equals : Option Str) (f : Flag F D)
    (fs : List (Flag F D)) (args : List Str) : Matched F D → Prop
  /-- Another name. -/
  | other {m : Matched F D} (hname : f.name ≠ name)
      (hrest : matchFlags lib name ignore equals fs args = some m) :
      Took lib name ignore equals f fs args { m with flags := f :: m.flags }
  | missing (hname : f.name = name) (hfetch : fetchArg equals args = none) :
      Took lib name ignore equals f fs args ⟨f :: fs, args, false, some .noValue⟩
  | refused {arg : Str} {args' : List Str} {e : FlagError} (hname : f.name = name)
      (hfetch : fetchArg equals args = some (arg, args'))
      (hstore : flagStore lib ignore arg f.val = some (.error e)) :
      Took lib name ignore equals f fs args ⟨f :: fs, args', false, some e⟩
  | stored {arg : Str} {args' : List Str} {v : FlagVal F D} {m : Matched F D}
      (hname : f.name = name) (hfetch : fetchArg equals args = some (arg, args'))
      (hstore : flagStore lib ignore arg f.val = some (.ok v))
      (hrest : matchFlags lib name ignore equals fs args' = some m) :
      Took lib name ignore equals f fs args
        { m with flags := { f with val := v, hasChanged := true } :: m.flags, found := true }

theorem matchFlags_cons {lib : FloatLib F D} {name : Str} {ignore : Bool} {equals : Option Str}
    {f : Flag F D} {fs : List (Flag F D)} {args : List Str} {m : Matched F D}
    (h : matchFlags lib name ignore equals (f :: fs) args = some m) :
    Took lib name ignore equals f fs args m := by
  rw [matchFlags] at h
  split at h
  · rename_i hname
    split at h
    · rename_i hfetch
      cases h
      exact .missing hname hfetch
    · rename_i arg args' hfetch
      split at h
      · cases h
      · rename_i e hstore
        cases h
        exact .refused hname hfetch hstore
      · rename_i v hstore
        split at h
        · cases h
        · rename_i hrest
          cases h
          exact .stored hname hfetch hstore hrest
  · rename_i hname
    split at h
    · cases h
    · rename_i hrest
      cases h
      exact .other hname hrest

theorem matchFlags_suffix {lib : FloatLib F D} {name : Str} {ignore : Bool} {equals : Option Str}
    {flags : List (Flag F D)} {args : List Str} {m : Matched F D}
    (h : matchFlags lib name ignore equals flags args = some m) : m.args <:+ args := by
  induction flags generalizing args m with
  | nil =>
    cases h
    exact List.suffix_refl _
  | cons f fs ih =>
    cases matchFlags_cons h with
    | other _ hrest =>
      have hsuf := ih hrest
      exact hsuf
    | missing => exact List.suffix_refl _
    | refused _ hfetch _ => exact fetchArg_suffix hfetch
    | stored _ hfetch _ hrest => exact (ih hrest).trans (fetchArg_suffix hfetch)

/-- A round that goes on takes its token at least. -/
theorem loopRound_next {lib : FloatLib F D} {c c' : FlagCtx F D} {args args' : List Str}
    (h : loopRound lib c args = .next c' args') :
    ∃ tok rest name ignore equals m, args = tok :: rest ∧
      readToken tok = some (name, ignore, equals) ∧ ¬ IsHelp name ∧
      matchFlags lib name ignore equals c.flags rest = some m ∧ m.err = none ∧ m.found = true ∧
      c' = { c with flags := m.flags } ∧ args' = m.args := by
  unfold loopRound at h
  split at h
  · cases h
  · rename_i tok rest
    split at h
    · cases h
    · rename_i name ignore equals htok
      split at h
      · cases h
      · rename_i hhelp
        split at h
        · cases h
        · rename_i m hm
          split at h
          · cases h
          · rename_i herr
            split at h
            · rename_i hfound
              cases h
              exact ⟨tok, rest, name, ignore, equals, m, rfl, htok, hhelp, hm, herr, hfound, rfl, rfl⟩
            · cases h

/-- A round that rejects its option has found no flag of the name, or an error. -/
theorem loopRound_refused {lib : FloatLib F D} {c c' : FlagCtx F D} {args : List Str}
    (h : loopRound lib c args = .reject c') :
    ∃ tok rest name ignore equals m, args = tok :: rest ∧
      readToken tok = some (name, ignore, equals) ∧ ¬ IsHelp name ∧
      matchFlags lib name ignore equals c.flags rest = some m ∧
      ((∃ e, m.err = some e ∧
        c' = { c with flags := m.flags, flagError := e, flagErrorName := some name }) ∨
      (m.err = none ∧ m.found = false ∧
        c' = { c with flags := m.flags, flagError := .unknown, flagErrorName := some name,
                      flagErrorValue := some name })) := by
  unfold loopRound at h
  split at h
  · cases h
  · rename_i tok rest
    split at h
    · cases h
    · rename_i name ignore equals htok
      split at h
      · cases h
      · rename_i hhelp
        split at h
        · cases h
        · rename_i m hm
          refine ⟨tok, rest, name, ignore, equals, m, rfl, htok, hhelp, hm, ?_⟩
          split at h
          · rename_i e herr
            cases h
            exact Or.inl ⟨e, herr, rfl⟩
          · rename_i herr
            split at h
            · cases h
            · rename_i hfound
              cases h
              exact Or.inr ⟨herr, Bool.eq_false_iff.mpr hfound, rfl⟩

theorem loopRound_suffix {lib : FloatLib F D} {c c' : FlagCtx F D} {args args' : List Str}
    (h : loopRound lib c args = .next c' args') : ∃ tok rest, args = tok :: rest ∧ args' <:+ rest := by
  obtain ⟨tok, rest, _, _, _, m, rfl, -, -, hm, -, -, -, rfl⟩ := loopRound_next h
  exact ⟨tok, rest, rfl, matchFlags_suffix hm⟩

/-! ## The loop -/

theorem parseLoop_round (lib : FloatLib F D) (n : ℕ) (c : FlagCtx F D) {args : List Str}
    (hn : args.length ≤ n + 1) :
    parseLoop lib (n + 1) c args =
      match loopRound lib c args with
      | .next c' args' => parseLoop lib n c' args'
      | .reject c' => some (c', [], false)
      | .help => some (c, [.help], true)
      | .stop => some (stopAt c args)
      | .overrun => none := by
  cases args with
  | nil => rfl
  | cons tok args =>
    by_cases hstop : tok.head? ≠ some '-' ∨ tok = "--".toList
    · rw [parseLoop, if_pos hstop, loopRound, readToken_eq_none hstop]
      rfl
    · cases htok : readToken tok with
      | none => exact absurd htok (readToken_ne_none hstop)
      | some t =>
        obtain ⟨name, ignore, equals⟩ := t
        rw [parseLoop_option lib n c args htok, loopRound, htok]
        dsimp only
        split
        · rfl
        · cases matchFlags lib name ignore equals c.flags args with
          | none => rfl
          | some m =>
            dsimp only
            cases m.err with
            | some e => rfl
            | none =>
              dsimp only
              split
              · rfl
              · rfl

/-- The bound on the number of rounds is no bound. -/
theorem parseLoop_eq_loop (lib : FloatLib F D) {n : ℕ} (c : FlagCtx F D) {args : List Str}
    (hn : args.length ≤ n) : parseLoop lib n c args = loop lib c args := by
  induction n using Nat.strong_induction_on generalizing c args with
  | _ n ih =>
    cases args with
    | nil => cases n <;> rfl
    | cons tok args =>
      obtain ⟨n, rfl⟩ : ∃ k, n = k + 1 := ⟨n - 1, by rw [List.length_cons] at hn; omega⟩
      rw [loop, List.length_cons, parseLoop_round lib n c hn,
        parseLoop_round lib args.length c (Nat.le_refl _)]
      cases hround : loopRound lib c (tok :: args) with
      | next c' args' =>
        obtain ⟨tok', rest, heq, hsuf⟩ := loopRound_suffix hround
        cases heq
        have hle := hsuf.length_le
        rw [List.length_cons] at hn
        dsimp only
        rw [ih n (Nat.lt_succ_self n) c' (by omega)]
        by_cases hlt : args.length < n + 1
        · rw [ih args.length hlt c' hle]
        · omega
      | _ => rfl

/-- **The loop is its rounds.** -/
theorem loop_eq (lib : FloatLib F D) (c : FlagCtx F D) (args : List Str) :
    loop lib c args =
      match loopRound lib c args with
      | .next c' args' => loop lib c' args'
      | .reject c' => some (c', [], false)
      | .help => some (c, [.help], true)
      | .stop => some (stopAt c args)
      | .overrun => none := by
  have hle : args.length ≤ args.length + 1 := Nat.le_succ _
  rw [← parseLoop_eq_loop lib c hle, parseLoop_round lib _ c hle]
  cases hround : loopRound lib c args with
  | next c' args' =>
    obtain ⟨tok, rest, rfl, hsuf⟩ := loopRound_suffix hround
    exact parseLoop_eq_loop lib c' (hsuf.length_le.trans (Nat.le_succ _))
  | _ => rfl

/-! ## Where the loop comes to -/

/-- From `args` the loop comes to `args'`, with the contexts there. -/
inductive Arrives (lib : FloatLib F D) : FlagCtx F D → List Str → FlagCtx F D → List Str → Prop
  | refl (c : FlagCtx F D) (args : List Str) : Arrives lib c args c args
  | round {c c₁ c' : FlagCtx F D} {args args₁ args' : List Str}
      (h : loopRound lib c args = .next c₁ args₁) (hrest : Arrives lib c₁ args₁ c' args') :
      Arrives lib c args c' args'

namespace Arrives

variable {lib : FloatLib F D} {c c' : FlagCtx F D} {args args' : List Str}

theorem suffix (h : Arrives lib c args c' args') : args' <:+ args := by
  induction h with
  | refl c args => exact List.suffix_refl _
  | round hround _ ih =>
    obtain ⟨tok, rest, rfl, hsuf⟩ := loopRound_suffix hround
    exact ih.trans (hsuf.trans (List.suffix_cons _ _))

theorem loop_eq (h : Arrives lib c args c' args') : loop lib c args = loop lib c' args' := by
  induction h with
  | refl c args => rfl
  | round hround _ ih => rw [Flags.loop_eq, hround, ← ih]

end Arrives

theorem fetchArg_change {equals : Option Str} {p p' X : List Str} {arg : Str}
    (h : fetchArg equals (p ++ X) = some (arg, p' ++ X)) (Y : List Str) :
    fetchArg equals (p ++ Y) = some (arg, p' ++ Y) := by
  unfold fetchArg at h ⊢
  cases equals with
  | some v =>
    simp only [Option.some.injEq, Prod.mk.injEq] at h
    obtain ⟨rfl, hp⟩ := h
    rw [List.append_cancel_right hp]
  | none =>
    cases p with
    | nil =>
      -- the argument would come out of `X`
      dsimp only at h
      cases X with
      | nil => cases h
      | cons x X =>
        simp only [List.nil_append, Option.some.injEq, Prod.mk.injEq] at h
        have hlen := congrArg List.length h.2
        rw [List.length_append, List.length_cons] at hlen
        omega
    | cons x p =>
      simp only [List.cons_append, Option.some.injEq, Prod.mk.injEq] at h
      obtain ⟨rfl, hp⟩ := h
      rw [List.append_cancel_right hp]
      rfl

/-- The loop over the flags looks at no argument behind those that it takes. -/
theorem matchFlags_change {lib : FloatLib F D} {name : Str} {ignore : Bool} {equals : Option Str}
    {flags : List (Flag F D)} {p p' X : List Str} {m : Matched F D}
    (h : matchFlags lib name ignore equals flags (p ++ X) = some m) (herr : m.err = none)
    (hargs : m.args = p' ++ X) (Y : List Str) :
    matchFlags lib name ignore equals flags (p ++ Y) = some { m with args := p' ++ Y } := by
  induction flags generalizing p m with
  | nil =>
    cases h
    rw [List.append_cancel_right hargs]
    rfl
  | cons f fs ih =>
    rw [matchFlags]
    cases matchFlags_cons h with
    | other hname hrest => rw [if_neg hname, ih hrest herr hargs]
    | missing => cases herr
    | refused => cases herr
    | @stored arg args₁ v m₁ hname hfetch hstore hrest =>
      -- what is taken here ends before `X` too
      obtain ⟨p₁, rfl⟩ : ∃ p₁, args₁ = p₁ ++ X := by
        obtain ⟨q, hq⟩ := matchFlags_suffix hrest
        exact ⟨q ++ p', by rw [← hq, hargs, List.append_assoc]⟩
      rw [if_pos hname, fetchArg_change hfetch Y]
      dsimp only
      rw [hstore]
      dsimp only
      rw [ih hrest herr hargs]

theorem loopRound_change {lib : FloatLib F D} {c c' : FlagCtx F D} {tok : Str} {p p' X : List Str}
    (h : loopRound lib c (tok :: p ++ X) = .next c' (p' ++ X)) (Y : List Str) :
    loopRound lib c (tok :: p ++ Y) = .next c' (p' ++ Y) := by
  obtain ⟨tok', rest, name, ignore, equals, m, heq, htok, hhelp, hm, herr, hfound, rfl, hargs⟩ :=
    loopRound_next h
  cases heq
  have hm' := matchFlags_change hm herr hargs.symm Y
  rw [List.cons_append, loopRound, htok]
  dsimp only
  rw [if_neg hhelp]
  change (match matchFlags lib name ignore equals c.flags (p ++ Y) with
    | none => _
    | some m => _) = _
  rw [hm']
  dsimp only
  rw [herr]
  dsimp only
  rw [if_pos hfound]

/-- **The loop looks at no argument behind those that it takes.** -/
theorem Arrives.change {lib : FloatLib F D} {c c' : FlagCtx F D} {p X : List Str}
    (h : Arrives lib c (p ++ X) c' X) (Y : List Str) : Arrives lib c (p ++ Y) c' Y := by
  generalize hargs : p ++ X = args at h
  induction h generalizing p with
  | refl c args =>
    obtain rfl : p = [] := by simpa using hargs
    exact .refl c Y
  | round hround hrest ih =>
    obtain ⟨tok, rest, heq, hsuf⟩ := loopRound_suffix hround
    obtain ⟨p₁, rfl⟩ := hrest.suffix
    subst hargs
    cases p with
    | nil =>
      have h₁ := congrArg List.length heq
      have h₂ := hsuf.length_le
      rw [List.length_append] at h₂
      rw [List.nil_append, List.length_cons] at h₁
      omega
    | cons x p => exact .round (loopRound_change hround Y) (ih rfl)

/-! ## The call -/

/-- The call comes to these arguments, with this context. -/
def Reaches (lib : FloatLib F D) (c : FlagCtx F D) (argv : List Str) (c' : FlagCtx F D)
    (args : List Str) : Prop :=
  Arrives lib (started c argv) (argsOf c argv) c' args

theorem flagParse_eq_loop (lib : FloatLib F D) {c : FlagCtx F D} {argv : List Str}
    (h : argv ≠ [] ∨ c.programName ≠ none) :
    flagParse lib c argv = loop lib (started c argv) (argsOf c argv) := by
  unfold flagParse argsOf started
  cases hprog : c.programName with
  | some name => rfl
  | none =>
    cases argv with
    | nil => exact absurd hprog (h.resolve_left fun h => h rfl)
    | cons prog args => rfl

/-- Arguments that a call comes to stand behind the program name. -/
theorem reaches_cons {lib : FloatLib F D} {c c' : FlagCtx F D} {pre X : List Str} (hX : X ≠ [])
    (h : Reaches lib c (pre ++ X) c' X) : pre ≠ [] ∨ c.programName ≠ none := by
  by_contra hnot
  rw [not_or, not_not, not_not] at hnot
  obtain ⟨rfl, hprog⟩ := hnot
  have hle := h.suffix.length_le
  obtain ⟨x, X, rfl⟩ := List.exists_cons_of_ne_nil hX
  simp only [argsOf, hprog, List.nil_append, List.tail_cons, List.length_cons] at hle
  omega

theorem reaches_change {lib : FloatLib F D} {c c' : FlagCtx F D} {pre X : List Str} (hX : X ≠ [])
    (h : Reaches lib c (pre ++ X) c' X) (Y : List Str) : Reaches lib c (pre ++ Y) c' Y := by
  have hpre := reaches_cons hX h
  unfold Reaches started argsOf at h ⊢
  cases hprog : c.programName with
  | some name =>
    simp only [hprog] at h ⊢
    exact h.change Y
  | none =>
    obtain ⟨prog, p, rfl⟩ := List.exists_cons_of_ne_nil (hpre.resolve_right fun h => h hprog)
    simp only [hprog, List.cons_append, List.tail_cons, List.head?_cons] at h ⊢
    exact h.change Y

/-- **A call is the loop from any point that it comes to.** -/
theorem flagParse_of_reaches {lib : FloatLib F D} {c c' : FlagCtx F D} {argv args : List Str}
    (hargv : argv ≠ [] ∨ c.programName ≠ none) (h : Reaches lib c argv c' args) :
    flagParse lib c argv = loop lib c' args := by
  rw [flagParse_eq_loop lib hargv]
  exact h.loop_eq

/-- A call that returns has arguments or a program name. -/
theorem argv_of_flagParse {lib : FloatLib F D} {c : FlagCtx F D} {argv : List Str}
    {r : FlagCtx F D × List FlagOut × Bool} (h : flagParse lib c argv = some r) :
    argv ≠ [] ∨ c.programName ≠ none := by
  by_contra hnot
  rw [not_or, not_not, not_not] at hnot
  obtain ⟨rfl, hprog⟩ := hnot
  rw [flagParse, hprog] at h
  cases h

end DataCommons.Flags
