import Mathlib.Data.List.Perm.Subperm
import Mathlib.Data.List.Nodup

/-!
# Lists in order of arrival

Elements carry an arrival number `f`; a list is ordered when each has a larger
number than those before it.  Elements may leave from any position and arrive at
the end.

* `getElem?_earlier`: the position of an element is the number of earlier ones;
* `Later`: what a list becomes when elements leave and others arrive;
* `earlier_length`: the position after such changes is the old one less the number
  of earlier elements that have left.
-/

namespace DataCommons.ArrivalList

variable {α : Type*} {f : α → ℕ} {l l' l'' : List α} {c : α} {n m : ℕ}

/-- Each element has a larger number than those before it. -/
def Ordered (f : α → ℕ) (l : List α) : Prop := l.Pairwise (f · < f ·)

/-- The elements with a number below `n`. -/
def before (f : α → ℕ) (n : ℕ) (l : List α) : List α := l.filter (f · < n)

/-- The elements of `l'` with a number below `n` come from `l`, in its order. -/
def Later (f : α → ℕ) (n : ℕ) (l l' : List α) : Prop := (before f n l').Sublist l

theorem mem_before : c ∈ before f n l ↔ c ∈ l ∧ f c < n := by
  simp [before]

/-- **An element's position is the number of earlier ones.** -/
theorem getElem?_earlier (hl : Ordered f l) (hc : c ∈ l) :
    l[(before f (f c) l).length]? = some c := by
  induction l with
  | nil => simp at hc
  | cons a l ih =>
    obtain ⟨ha, hl⟩ := List.pairwise_cons.mp hl
    rcases List.mem_cons.mp hc with rfl | hc
    · have hnil : before f (f c) (c :: l) = [] := by
        refine List.filter_eq_nil_iff.mpr fun b hb => ?_
        rcases List.mem_cons.mp hb with rfl | hb
        · simp
        · have := ha b hb
          simp only [decide_eq_true_eq]
          omega
      rw [hnil]
      rfl
    · have hcons : before f (f c) (a :: l) = a :: before f (f c) l :=
        List.filter_cons_of_pos (by simpa using ha c hc)
      rw [hcons, List.length_cons, List.getElem?_cons_succ]
      exact ih hl hc

theorem Ordered.nodup (hl : Ordered f l) : l.Nodup :=
  List.Pairwise.imp (fun h heq => by rw [heq] at h; omega) hl

/-- A search by a key that no two elements share. -/
theorem find?_key {κ : Type*} [DecidableEq κ] {key : α → κ} (hl : (l.map key).Nodup) (hc : c ∈ l) :
    l.find? (fun a => key a = key c) = some c := by
  have hfound : (l.find? fun a => key a = key c).isSome :=
    List.find?_isSome.mpr ⟨c, hc, decide_eq_true rfl⟩
  obtain ⟨d, hd⟩ := Option.isSome_iff_exists.mp hfound
  have hkey : key d = key c := by simpa using List.find?_some hd
  rw [hd, List.inj_on_of_nodup_map hl (List.mem_of_find?_eq_some hd) hc hkey]

theorem Later.refl (f : α → ℕ) (n : ℕ) (l : List α) : Later f n l l := List.filter_sublist

theorem Later.of_sublist (h : l'.Sublist l) : Later f n l l' := List.filter_sublist.trans h

theorem Later.arrive (hc : n ≤ f c) : Later f n l (l ++ [c]) := by
  have hnil : before f n [c] = [] := by simp [before, hc]
  rw [Later, before, List.filter_append]
  change (before f n l ++ before f n [c]).Sublist l
  rw [hnil, List.append_nil]
  exact List.filter_sublist

theorem Later.trans (hnm : n ≤ m) (h₁ : Later f n l l') (h₂ : Later f m l' l'') :
    Later f n l l'' := by
  have hbefore : before f n (before f m l'') = before f n l'' := by
    rw [before, before, before, List.filter_filter]
    refine List.filter_congr fun c _ => ?_
    rw [← Bool.decide_and]
    exact decide_eq_decide.mpr ⟨fun h => h.1, fun h => ⟨h, by omega⟩⟩
  have h := h₂.filter (f · < n)
  change (before f n (before f m l'')).Sublist (before f n l') at h
  rw [hbefore] at h
  exact h.trans h₁

/-- **Positions after leaving and arriving.**  With `n` the number of the next
arrival, the elements numbered below `n` are the old ones that have not left. -/
theorem earlier_length [DecidableEq α] (hl : Ordered f l) (hl' : Ordered f l')
    (hn : ∀ c ∈ l, f c < n) (later : Later f n l l') :
    (before f n l').length + (l.filter (· ∉ l')).length = l.length := by
  have hperm : (before f n l').Perm (l.filter (· ∈ l')) := by
    refine (List.perm_ext_iff_of_nodup (hl'.nodup.filter _) (hl.nodup.filter _)).mpr fun c => ?_
    refine Iff.trans mem_before ?_
    rw [List.mem_filter, decide_eq_true_eq]
    constructor
    · intro hc
      exact ⟨later.subset (mem_before.mpr hc), hc.1⟩
    · intro hc
      exact ⟨hc.2, hn c hc.1⟩
  have hsplit := l.length_eq_length_filter_add (· ∈ l')
  simp only [decide_not] at hsplit ⊢
  rw [hperm.length_eq]
  exact hsplit.symm

end DataCommons.ArrivalList
