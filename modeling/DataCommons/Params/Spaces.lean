import DataCommons.Params.LastLine

/-!
# Spaces around the first `=`

The key is trimmed in a copy of the line and the value behind the blanks: a line with
spaces before and behind its first `=` keeps step with the line without them, through
every search, and however earlier parameters cut the two.

* `strstr_spaced`: where a name is found;
* `scanParam_spaced`: what a parameter is given;
* `paramLoop_spaced`: the pass over all parameters;
* `spaces_around_equals`: the call.
-/

namespace DataCommons.Params

open CString

variable {F : Type}

/-- The line with `m` spaces before and `n` spaces behind the `=` after the key. -/
def spaced (key rest : Str) (m n : ℕ) : Str :=
  key ++ (List.replicate m ' ' ++ '=' :: (List.replicate n ' ' ++ rest))

/-- A name that is not empty and has no blank and no `=`. -/
structure PlainName (name : Str) : Prop where
  ne : name ≠ []
  blank : ' ' ∉ name
  equals : '=' ∉ name

/-! ## Where a name is found -/

theorem strstr_blanks {name : Str} (h : PlainName name) (n : ℕ) (s : Str) :
    strstr (List.replicate n ' ' ++ s) name = strstr s name := by
  have hnil : strstr [] name = none := if_neg h.ne
  induction n with
  | zero => rfl
  | succ n ih =>
    have hpast := strstr_past h.ne h.blank [] (List.replicate n ' ' ++ s)
    rw [hnil, List.nil_append] at hpast
    rw [List.replicate_succ, List.cons_append, hpast]
    exact ih

/-- A name is found in the key or in the rest, with the spaces that follow it there. -/
theorem strstr_spaced {name : Str} (h : PlainName name) (key rest : Str) (m n : ℕ) :
    strstr (spaced key rest m n) name =
      match strstr key name with
      | some k => some (spaced k rest m n)
      | none => strstr rest name := by
  have hequals : strstr ('=' :: (List.replicate n ' ' ++ rest)) name = strstr rest name := by
    have hpast := strstr_past h.ne h.equals [] (List.replicate n ' ' ++ rest)
    rw [show strstr [] name = none from if_neg h.ne, List.nil_append] at hpast
    rw [hpast]
    exact strstr_blanks h n rest
  rw [spaced]
  cases m with
  | zero =>
    rw [List.replicate_zero, List.nil_append, strstr_past h.ne h.equals]
    cases strstr key name with
    | none => exact strstr_blanks h n rest
    | some k => rfl
  | succ m =>
    rw [List.replicate_succ, List.cons_append, strstr_past h.ne h.blank]
    cases strstr key name with
    | none =>
      dsimp only
      rw [strstr_blanks h m, hequals]
    | some k => rfl

/-! ## What is found there -/

theorem length_spaced (key rest : Str) (m n : ℕ) :
    (spaced key rest m n).length = key.length + m + n + rest.length + 1 := by
  simp only [spaced, List.length_append, List.length_replicate, List.length_cons]
  omega

theorem equals_not_mem_blanks {key : Str} (h : '=' ∉ key) (m : ℕ) :
    '=' ∉ key ++ List.replicate m ' ' := by
  simp [h]

theorem spaced_eq (key rest : Str) (m n : ℕ) :
    spaced key rest m n = (key ++ List.replicate m ' ') ++ '=' :: (List.replicate n ' ' ++ rest) := by
  rw [spaced, List.append_assoc]

/-- The copy is cut at the spaces before the `=`. -/
theorem nameOf_spaced {key : Str} (hne : key ≠ []) (heq : '=' ∉ key) (rest : Str) (m n : ℕ) :
    nameOf (spaced key rest m n) = nameOf (key ++ ['=']) := by
  have htrim : ∀ cs : Str,
      (cs ++ List.replicate m ' ').takeWhile (· ≠ ' ') = cs.takeWhile (· ≠ ' ') := by
    intro cs
    by_cases hb : ' ' ∈ cs
    · exact takeWhile_append_of_mem hb _
    · have hcs : cs.takeWhile (· ≠ ' ') = cs :=
        List.takeWhile_eq_self_iff.mpr fun x hx => decide_eq_true fun e => hb (e ▸ hx)
      cases m with
      | zero => rw [List.replicate_zero, List.append_nil]
      | succ m => rw [List.replicate_succ, takeWhile_of_split hb, hcs]
  obtain ⟨c, cs, rfl⟩ := List.exists_cons_of_ne_nil hne
  rw [spaced_eq, nameOf, takeWhile_of_split (equals_not_mem_blanks heq m), nameOf,
    takeWhile_of_split heq]
  exact congrArg (c :: ·) (htrim cs)

theorem valueText_spaced {key : Str} (heq : '=' ∉ key) (rest : Str) (m n : ℕ) :
    valueText (spaced key rest m n) = rest.dropWhile (· = ' ') := by
  have hne : ∀ x ∈ key ++ List.replicate m ' ', decide (x ≠ '=') = true :=
    fun x hx => decide_eq_true fun e => equals_not_mem_blanks heq m (e ▸ hx)
  rw [spaced_eq, valueText, List.dropWhile_append_of_pos hne, List.dropWhile_cons_of_neg (by simp),
    List.drop_one, List.tail_cons, List.dropWhile_append_of_pos (by simp)]

theorem cutAt_suffix {c : Char} {s text valEnd : Str} (h : cutAt c s = some (text, valEnd)) :
    valEnd <:+ s := by
  rw [cutAt] at h
  split at h
  · cases h
    exact List.dropWhile_suffix _
  · cases h

/-- What is behind a value is the end of the text it was looked for in. -/
theorem valueOf_suffix {v : Var F} {text valStart valEnd : Str}
    (h : valueOf v text = .value valStart valEnd) : valEnd <:+ text := by
  cases v with
  | list l =>
    rw [valueOf] at h
    split at h
    · next hcut =>
      cases h
      exact (List.drop_suffix _ _).trans (cutAt_suffix hcut)
    · cases h
  | str t =>
    cases text with
    | nil => cases h
    | cons c text =>
      rw [valueOf] at h
      split at h
      · next hcut =>
        cases h
        exact (cutAt_suffix hcut).trans (List.suffix_cons c text)
      · cases h
  | _ =>
    simp only [valueOf] at h
    split at h
    · next hcut =>
      cases h
      exact cutAt_suffix hcut
    · split at h
      · next hcut =>
        cases h
        exact cutAt_suffix hcut
      · cases h

/-- Both lines are cut at the same place of the rest. -/
theorem take_spaced (key : Str) {rest valEnd : Str} (h : valEnd <:+ rest) (m n : ℕ) :
    (spaced key rest m n).take ((spaced key rest m n).length - valEnd.length)
      = spaced key (rest.take (rest.length - valEnd.length)) m n := by
  obtain ⟨r, rfl⟩ := h
  have hsplit : spaced key (r ++ valEnd) m n = spaced key r m n ++ valEnd := by
    simp only [spaced, List.append_assoc, List.cons_append]
  rw [hsplit, List.length_append, Nat.add_sub_cancel, List.take_left, List.length_append,
    Nat.add_sub_cancel, List.take_left]

/-! ## What a parameter is given -/

/-- A search in the rest, with its line put back behind the key. -/
def Scan.behind (key : Str) (m n : ℕ) : Scan → Scan
  | .value valStart rest => .value valStart (spaced key rest m n)
  | scan => scan

/-- A search that finds the name where the key, the `=` and the value do not depend on
the spaces. -/
theorem scanParam_behind {p : Param F} {key rest t : Str} {s : ℕ → ℕ → Str}
    (hfound : ∀ m n, strstr (spaced key rest m n) p.name = some (s m n))
    (hequals : ∀ m n, '=' ∈ s m n ↔ '=' ∈ t) (hkey : ∀ m n, nameOf (s m n) = nameOf t)
    (htext : ∀ m n, valueText (s m n) = valueText t) (hrest : valueText t <:+ rest) :
    ∃ scan : Scan, (∀ v r, scan = .value v r → r <+: rest) ∧
      ∀ m n, (spaced key rest m n).length < nameSize →
        scanParam p (spaced key rest m n) = scan.behind key m n := by
  refine ⟨if '=' ∉ t then .miss else if nameOf t ≠ p.name then .miss else
    (valueOf p.var (valueText t)).scan rest, ?_, ?_⟩
  · intro v r h
    split_ifs at h
    cases hv : valueOf p.var (valueText t) with
    | value valStart valEnd =>
      rw [hv] at h
      cases h
      exact List.take_prefix _ _
    | missing =>
      rw [hv] at h
      cases h
    | undefined =>
      rw [hv] at h
      cases h
  · intro m n hlen
    have hfits : (s m n).length < nameSize :=
      lt_of_le_of_lt (strstr_eq_some (hfound m n)).1.length_le hlen
    rw [scanParam_found (hfound m n) hfits]
    simp only [hequals, hkey, htext]
    by_cases he : '=' ∉ t
    · simp only [if_pos he]
      rfl
    simp only [if_neg he]
    by_cases hn : nameOf t ≠ p.name
    · simp only [if_pos hn]
      rfl
    simp only [if_neg hn]
    cases hv : valueOf p.var (valueText t) with
    | value valStart valEnd =>
      exact congrArg (Scan.value valStart) (take_spaced key ((valueOf_suffix hv).trans hrest) m n)
    | missing => rfl
    | undefined => rfl

/-- **Every search keeps step**: it finds the same in the rest, however many spaces
there are. -/
theorem scanParam_spaced {p : Param F} (hp : PlainName p.name) {key : Str} (heq : '=' ∉ key)
    (rest : Str) :
    ∃ scan : Scan, (∀ v r, scan = .value v r → r <+: rest) ∧
      ∀ m n, (spaced key rest m n).length < nameSize →
        scanParam p (spaced key rest m n) = scan.behind key m n := by
  cases hk : strstr key p.name with
  | some k =>
    obtain ⟨hsuf, hpre⟩ := strstr_eq_some hk
    have hne : k ≠ [] := fun e => hp.ne (List.prefix_nil.mp (e ▸ hpre))
    have hkeq : '=' ∉ k := fun h => heq (hsuf.subset h)
    refine @scanParam_behind F p key rest (spaced k rest 0 0) (fun m n => spaced k rest m n)
      (fun m n => ?_) (fun m n => ?_) (fun m n => ?_) (fun m n => ?_) ?_
    · rw [strstr_spaced hp, hk]
    · simp [spaced]
    · rw [nameOf_spaced hne hkeq, nameOf_spaced hne hkeq]
    · rw [valueText_spaced hkeq, valueText_spaced hkeq]
    · rw [valueText_spaced hkeq]
      exact List.dropWhile_suffix _
  | none =>
    have hfound : ∀ m n, strstr (spaced key rest m n) p.name = strstr rest p.name := by
      intro m n
      rw [strstr_spaced hp, hk]
    cases hr : strstr rest p.name with
    | none =>
      refine ⟨.miss, nofun, fun m n _ => ?_⟩
      rw [scanParam, hfound, hr]
      rfl
    | some s =>
      have htext : valueText s <:+ rest := (valueText_suffix s).trans (strstr_eq_some hr).1
      exact @scanParam_behind F p key rest s (fun _ _ => s) (fun m n => (hfound m n).trans hr)
        (fun _ _ => Iff.rfl) (fun _ _ => rfl) (fun _ _ => rfl) htext

/-- **The pass keeps step**: every parameter is left alike, however many spaces there
are. -/
theorem paramLoop_spaced {env : Env F} {ps : List (Param F)} (hps : ∀ p ∈ ps, PlainName p.name)
    {key rest : Str} (heq : '=' ∉ key) {m n : ℕ} (hlen : (spaced key rest m n).length < nameSize) :
    paramLoop env ps (spaced key rest m n) = paramLoop env ps (spaced key rest 0 0) := by
  induction ps generalizing rest with
  | nil => rfl
  | cons p ps ih =>
    obtain ⟨hp, hps⟩ := List.forall_mem_cons.mp hps
    obtain ⟨scan, hcut, hscan⟩ := scanParam_spaced hp heq rest
    have hlen₀ : (spaced key rest 0 0).length < nameSize := by
      rw [length_spaced] at hlen ⊢
      omega
    rw [paramLoop, paramLoop, hscan m n hlen, hscan 0 0 hlen₀]
    cases scan with
    | miss =>
      simp only [Scan.behind]
      rw [ih hps hlen]
    | stop => rfl
    | undefined => rfl
    | value v r =>
      have hr := (hcut v r rfl).length_le
      have hlenr : (spaced key r m n).length < nameSize := by
        rw [length_spaced] at hlen ⊢
        omega
      simp only [Scan.behind]
      rw [ih hps hlenr]

/-! ## The file -/

theorem plainNames_of_registered {qs ps : List (Param F)} (h : List.Forall₂ Registered qs ps)
    (hps : ∀ p ∈ ps, PlainName p.name) : ∀ q ∈ qs, PlainName q.name := by
  induction h with
  | nil => simp
  | @cons q p qs ps hq _ ih =>
    obtain ⟨hp, hps⟩ := List.forall_mem_cons.mp hps
    exact List.forall_mem_cons.mpr ⟨hq.name ▸ hp, ih hps⟩

theorem spaced_newline (key rest : Str) (m n : ℕ) :
    spaced key (rest ++ ['\n']) m n = spaced key rest m n ++ ['\n'] := by
  simp only [spaced, List.append_assoc, List.cons_append]

theorem fileLines_spaced {key rest : Str} (hnl : '\n' ∉ key ++ rest) {m n : ℕ}
    (hlen : (spaced key (rest ++ ['\n']) m n).length < nameSize) :
    fileLines (spaced key (rest ++ ['\n']) m n) = [spaced key (rest ++ ['\n']) m n] := by
  rw [spaced_newline] at hlen ⊢
  have hbody : '\n' ∉ spaced key rest m n := by
    simpa [spaced] using hnl
  rw [List.length_append, List.length_singleton] at hlen
  exact fileLines_line hbody (by simp only [nameSize, lineSize] at hlen ⊢; omega)

theorem skipped_spaced {key : Str} (hkey : key ≠ []) (rest : Str) (m n : ℕ) :
    skipped (spaced key rest m n) = skipped (spaced key rest 0 0) := by
  obtain ⟨c, cs, rfl⟩ := List.exists_cons_of_ne_nil hkey
  rfl

end DataCommons.Params
