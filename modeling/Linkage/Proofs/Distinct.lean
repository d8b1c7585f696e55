import Mathlib
import Linkage.Distinct

/-!
Lists without repeats. Of the elements with one key, sorting keeps the order, so the one that stays is the first. A
list of distinct elements may still repeat what they are mapped to; dropping those repeats too gives the distinct
images of the list itself.
-/
namespace Linkage

variable {α β : Type}

section

variable (key : α → String)

theorem keyLe_trans (a b c : α) : decide (key a ≤ key b) = true → decide (key b ≤ key c) = true →
    decide (key a ≤ key c) = true := by
  simp only [decide_eq_true_eq]
  exact String.le_trans

theorem keyLe_total (a b : α) : (decide (key a ≤ key b) || decide (key b ≤ key a)) = true := by
  simpa using String.le_total (key a) (key b)

theorem pairwise_mergeSort_key (xs : List α) :
    (xs.mergeSort fun a b => decide (key a ≤ key b)).Pairwise fun a b => key a ≤ key b :=
  (List.pairwise_mergeSort (keyLe_trans key) (keyLe_total key) xs).imp of_decide_eq_true

theorem rising_mergeSort {xs : List String} (h : xs.Nodup) :
    (xs.mergeSort fun a b => decide (a ≤ b)).Pairwise (· < ·) := by
  have hle : (xs.mergeSort fun a b => decide (a ≤ b)).Pairwise (· ≤ ·) := pairwise_mergeSort_key id xs
  have hne : (xs.mergeSort fun a b => decide (a ≤ b)).Nodup := (List.mergeSort_perm _ _).nodup_iff.mpr h
  exact hle.imp₂ (fun _ _ hle hne => lt_of_le_of_ne hle hne) hne

/-- Sorting leaves the elements with one key in their order. -/
theorem filter_mergeSort (k : String) (xs : List α) :
    (xs.mergeSort fun a b => decide (key a ≤ key b)).filter (key · == k) = xs.filter (key · == k) := by
  have hequal : (xs.filter (key · == k)).Pairwise fun a b => decide (key a ≤ key b) = true := by
    refine List.pairwise_iff_forall_sublist.mpr fun {a b} h => ?_
    have ha := List.mem_filter.mp (h.subset (by simp : a ∈ [a, b]))
    have hb := List.mem_filter.mp (h.subset (by simp : b ∈ [a, b]))
    simp only [beq_iff_eq] at ha hb
    simp [ha.2, hb.2]
  have hkept := List.sublist_mergeSort (keyLe_trans key) (keyLe_total key) hequal List.filter_sublist
  have hsub := hkept.filter (key · == k)
  rw [List.filter_filter] at hsub
  simp only [Bool.and_self] at hsub
  exact (hsub.eq_of_length ((List.mergeSort_perm xs _).filter _).length_eq.symm).symm

theorem find?_mergeSort (k : String) (xs : List α) :
    (xs.mergeSort fun a b => decide (key a ≤ key b)).find? (key · == k) = xs.find? (key · == k) := by
  rw [← List.head?_filter, filter_mergeSort, List.head?_filter]

/-- If the first elements with each of the other keys are kept after an element, then with it those of all keys are. -/
theorem mem_cons_iff_find? {x y : α} {rest kept : List α}
    (hkept : y ∈ kept ↔ key y ≠ key x ∧ rest.find? (key · == key y) = some y) :
    y ∈ x :: kept ↔ (x :: rest).find? (key · == key y) = some y := by
  rw [List.mem_cons, hkept]
  by_cases hx : key x = key y
  · rw [List.find?_cons_of_pos (by simpa using hx)]
    constructor
    · rintro (rfl | h)
      · rfl
      · exact absurd hx.symm h.1
    · intro h
      exact .inl (Option.some.inj h).symm
  · rw [List.find?_cons_of_neg (by simpa using hx)]
    constructor
    · rintro (rfl | h)
      · exact absurd rfl hx
      · exact h.2
    · intro h
      exact .inr ⟨fun heq => hx heq.symm, h⟩

/-- In a sorted list, what stays after an element are the first elements with each of the other keys. -/
theorem mem_dropRepeatsAfter {x y : α} {rest : List α} (hsorted : (x :: rest).Pairwise fun a b => key a ≤ key b) :
    y ∈ dropRepeatsAfter key x rest ↔ key y ≠ key x ∧ rest.find? (key · == key y) = some y := by
  induction rest generalizing x with
  | nil => simp [dropRepeatsAfter]
  | cons z rest ih =>
    obtain ⟨hx, hrest⟩ := List.pairwise_cons.mp hsorted
    rw [dropRepeatsAfter]
    by_cases heq : key z = key x
    · have hskip : (x :: rest).Pairwise fun a b => key a ≤ key b :=
        hsorted.sublist (.cons_cons x (List.sublist_cons_self z rest))
      rw [if_pos heq, ih hskip]
      refine and_congr_right fun hne => ?_
      rw [List.find?_cons_of_neg (by simpa [heq] using fun h => hne h.symm)]
    · have hlt : key x < key z := lt_of_le_of_ne (hx z (by simp)) (Ne.symm heq)
      rw [if_neg heq, mem_cons_iff_find? key (ih hrest)]
      -- The keys after `x` are at least that of `z`, so none of them is that of `x`.
      refine ⟨fun h => ⟨?_, h⟩, fun h => h.2⟩
      rcases List.mem_cons.mp (List.mem_of_find?_eq_some h) with rfl | hy
      · exact heq
      · exact (lt_of_lt_of_le hlt ((List.pairwise_cons.mp hrest).1 y hy)).ne'

/-- For each key the first element stays. -/
theorem mem_sortDistinctBy {xs : List α} {y : α} :
    y ∈ sortDistinctBy key xs ↔ xs.find? (key · == key y) = some y := by
  have hsorted := pairwise_mergeSort_key key xs
  rw [← find?_mergeSort, sortDistinctBy]
  cases hys : xs.mergeSort fun a b => decide (key a ≤ key b) with
  | nil => simp [dropRepeats]
  | cons x rest =>
    rw [hys] at hsorted
    exact mem_cons_iff_find? key (mem_dropRepeatsAfter key hsorted)

theorem mem_map_sortDistinctBy {xs : List α} {k : String} : k ∈ (sortDistinctBy key xs).map key ↔ k ∈ xs.map key := by
  simp only [List.mem_map, mem_sortDistinctBy]
  constructor
  · rintro ⟨x, hx, rfl⟩
    exact ⟨x, List.mem_of_find?_eq_some hx, rfl⟩
  · rintro ⟨x, hx, rfl⟩
    have hsome : (xs.find? (key · == key x)).isSome := List.find?_isSome.mpr ⟨x, hx, beq_self_eq_true (key x)⟩
    obtain ⟨y, hy⟩ := Option.isSome_iff_exists.mp hsome
    have hkey : key y = key x := by simpa using List.find?_some hy
    exact ⟨y, hkey ▸ hy, hkey⟩

/-- After an element of a sorted list the keys rise from its own. -/
theorem rising_dropRepeatsAfter {x : α} {rest : List α} (hsorted : (x :: rest).Pairwise fun a b => key a ≤ key b) :
    (x :: dropRepeatsAfter key x rest).Pairwise fun a b => key a < key b := by
  induction rest generalizing x with
  | nil => simp [dropRepeatsAfter]
  | cons z rest ih =>
    obtain ⟨hx, hrest⟩ := List.pairwise_cons.mp hsorted
    rw [dropRepeatsAfter]
    by_cases heq : key z = key x
    · rw [if_pos heq]
      exact ih (hsorted.sublist (.cons_cons x (List.sublist_cons_self z rest)))
    · have hlt : key x < key z := lt_of_le_of_ne (hx z (by simp)) (Ne.symm heq)
      have hrising := ih hrest
      rw [if_neg heq]
      refine List.pairwise_cons.mpr ⟨fun b hb => ?_, hrising⟩
      rcases List.mem_cons.mp hb with rfl | hb
      · exact hlt
      · exact lt_trans hlt ((List.pairwise_cons.mp hrising).1 b hb)

theorem rising_sortDistinctBy (xs : List α) : (sortDistinctBy key xs).Pairwise fun a b => key a < key b := by
  have hsorted := pairwise_mergeSort_key key xs
  rw [sortDistinctBy]
  cases hys : xs.mergeSort fun a b => decide (key a ≤ key b) with
  | nil => simp [dropRepeats]
  | cons x rest => exact rising_dropRepeatsAfter key (hys ▸ hsorted)

end

theorem mem_sortDistinct {xs : List String} {x : String} : x ∈ sortDistinct xs ↔ x ∈ xs := by
  have hmem : x ∈ (sortDistinctBy id xs).map id ↔ x ∈ xs.map id := mem_map_sortDistinctBy id
  simpa [sortDistinct] using hmem

theorem rising_sortDistinct (xs : List String) : (sortDistinct xs).Pairwise (· < ·) := rising_sortDistinctBy id xs

/-- Neither the order of the texts nor how often they are listed matters. -/
theorem sortDistinct_congr {xs ys : List String} (h : ∀ x, x ∈ xs ↔ x ∈ ys) : sortDistinct xs = sortDistinct ys := by
  refine (rising_sortDistinct xs).eq_of_mem_iff (rising_sortDistinct ys) fun x => ?_
  rw [mem_sortDistinct, mem_sortDistinct, h]

/-- Goes through a list as `eraseDups` does: past an element, what repeats it is left out. -/
theorem eraseDups_induction {motive : List α → Prop} (xs : List α) (nil : motive [])
    (cons : ∀ x rest, (∀ p : α → Bool, motive (rest.filter p)) → motive (x :: rest)) : motive xs := by
  induction hn : xs.length using Nat.strongRecOn generalizing xs with
  | ind n ih =>
    subst hn
    cases xs with
    | nil => exact nil
    | cons x rest =>
      refine cons x rest fun p => ih _ ?_ _ rfl
      exact Nat.lt_succ_of_le (List.length_filter_le p rest)

section

variable [BEq α]

theorem eraseDups_sublist (xs : List α) : xs.eraseDups.Sublist xs := by
  induction xs using eraseDups_induction with
  | nil => simp
  | cons x rest ih =>
    rw [List.eraseDups_cons]
    exact ((ih _).trans List.filter_sublist).cons_cons x

variable [LawfulBEq α] [BEq β] [LawfulBEq β]

theorem nodup_eraseDups (xs : List α) : xs.eraseDups.Nodup := by
  induction xs using eraseDups_induction with
  | nil => simp
  | cons x rest ih =>
    rw [List.eraseDups_cons, List.nodup_cons]
    exact ⟨by simp [List.mem_eraseDups], ih _⟩

theorem eraseDups_eq_self_iff {xs : List α} : xs.eraseDups = xs ↔ xs.Nodup := by
  constructor
  · intro h
    exact h ▸ nodup_eraseDups xs
  · intro h
    induction xs with
    | nil => simp
    | cons x rest ih =>
      obtain ⟨hx, hrest⟩ := List.nodup_cons.mp h
      have hkeep : rest.filter (fun b => !b == x) = rest := by
        refine List.filter_eq_self.mpr fun b hb => ?_
        have hne : b ≠ x := fun heq => hx (heq ▸ hb)
        simpa using hne
      rw [List.eraseDups_cons, hkeep, ih hrest]

/-- A list is shorter without its repeats exactly if it has some. -/
theorem length_eraseDups_eq_iff {xs : List α} : xs.length = xs.eraseDups.length ↔ xs.Nodup := by
  rw [← eraseDups_eq_self_iff]
  constructor
  · exact fun h => (eraseDups_sublist xs).eq_of_length h.symm
  · exact fun h => congrArg List.length h.symm

theorem filter_eraseDups (p : α → Bool) (xs : List α) : xs.eraseDups.filter p = (xs.filter p).eraseDups := by
  induction xs using eraseDups_induction with
  | nil => simp
  | cons x rest ih =>
    rw [List.eraseDups_cons]
    by_cases hx : p x
    · rw [List.filter_cons_of_pos hx, List.filter_cons_of_pos hx, List.eraseDups_cons, ih, List.filter_filter,
        List.filter_filter]
      simp only [Bool.and_comm]
    · have hother : (rest.filter fun b => !b == x).filter p = rest.filter p := by
        rw [List.filter_filter]
        refine List.filter_congr fun b _ => ?_
        by_cases hb : b = x <;> simp [hb, hx]
      rw [List.filter_cons_of_neg hx, List.filter_cons_of_neg hx, ih, hother]

/-- The distinct images of a list are those of its distinct elements, in the same order. -/
theorem eraseDups_map_eraseDups (f : α → β) (xs : List α) : (xs.eraseDups.map f).eraseDups = (xs.map f).eraseDups := by
  induction xs using eraseDups_induction with
  | nil => simp
  | cons x rest ih =>
    have hlater : (rest.filter fun b => !b == x).filter (fun b => !f b == f x) = rest.filter fun b => !f b == f x := by
      rw [List.filter_filter]
      refine List.filter_congr fun b _ => ?_
      by_cases hb : b = x <;> simp [hb]
    calc ((x :: rest).eraseDups.map f).eraseDups
        = f x :: (((rest.filter fun b => !b == x).eraseDups.filter fun b => !f b == f x).map f).eraseDups := by
          rw [List.eraseDups_cons, List.map_cons, List.eraseDups_cons, List.filter_map]
          rfl
      _ = f x :: ((rest.filter fun b => !f b == f x).map f).eraseDups := by rw [filter_eraseDups, hlater, ih]
      _ = ((x :: rest).map f).eraseDups := by
          rw [List.map_cons, List.eraseDups_cons, List.filter_map]
          rfl

end

/-- The distinct elements with a property, each as often as it occurs, are all the elements with it. -/
theorem sum_count_filter_eraseDups [DecidableEq α] (p : α → Bool) (xs : List α) :
    ((xs.eraseDups.filter p).map fun x => xs.count x).sum = xs.countP p := by
  have hperm : xs.eraseDups.Perm xs.dedup :=
    (List.perm_ext_iff_of_nodup (nodup_eraseDups xs) xs.nodup_dedup).mpr fun x => by simp
  rw [((hperm.filter p).map fun x => xs.count x).sum_eq, List.sum_map_count_dedup_filter_eq_countP]

end Linkage
