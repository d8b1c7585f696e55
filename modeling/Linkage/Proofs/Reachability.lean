import Mathlib.Logic.Relation
import Linkage.Digraph

/-!
What a search in rounds finds. A round may list what it finds in any order; after all rounds the vertices found are
those that some path leads to, and a round for each of its steps is enough. The argument takes a path apart at the last
of its vertices that the current round finds: what follows there is left for the later rounds, and it is shorter.
-/
namespace Linkage

variable {α : Type}

/-- So many steps lead from the first element to the second. -/
inductive Leads (R : α → α → Prop) : Nat → α → α → Prop
  | refl {v : α} : Leads R 0 v v
  | tail {n : Nat} {u v w : α} : Leads R n u v → R v w → Leads R (n + 1) u w

namespace Leads

variable {R S : α → α → Prop} {n : Nat} {u v w : α}

theorem head (h : R u v) (hrest : Leads R n v w) : Leads R (n + 1) u w := by
  induction hrest with
  | refl => exact .tail .refl h
  | tail _ hlast ih => exact .tail (ih h) hlast

theorem exists_head (h : Leads R (n + 1) u w) : ∃ v, R u v ∧ Leads R n v w := by
  induction n generalizing w with
  | zero =>
    cases h with
    | tail hnone hlast =>
      cases hnone
      exact ⟨w, hlast, .refl⟩
  | succ n ih =>
    cases h with
    | tail hbefore hlast =>
      obtain ⟨v, hfirst, hrest⟩ := ih hbefore
      exact ⟨v, hfirst, .tail hrest hlast⟩

theorem mono (hRS : ∀ a b, R a b → S a b) (h : Leads R n u w) : Leads S n u w := by
  induction h with
  | refl => exact .refl
  | tail _ hlast ih => exact .tail ih (hRS _ _ hlast)

/-- A path from an element with a property goes on without it after the last element that has it. -/
theorem after_last {P : α → Prop} (h : Leads R n u w) (hu : P u) :
    ∃ v, P v ∧ ∃ k ≤ n, Leads (fun a b => R a b ∧ ¬ P b) k v w := by
  induction h with
  | refl => exact ⟨_, hu, 0, Nat.le_refl 0, .refl⟩
  | @tail n u v w _ hlast ih =>
    by_cases hw : P w
    · exact ⟨w, hw, 0, Nat.zero_le _, .refl⟩
    · obtain ⟨x, hx, k, hk, hrest⟩ := ih hu
      exact ⟨x, hx, k + 1, Nat.succ_le_succ hk, .tail hrest ⟨hlast, hw⟩⟩

theorem exists_iff : (∃ n, Leads R n u w) ↔ Relation.ReflTransGen R u w := by
  constructor
  · rintro ⟨n, h⟩
    induction h with
    | refl => exact .refl
    | tail _ hlast ih => exact .tail ih hlast
  · intro h
    induction h with
    | refl => exact ⟨0, .refl⟩
    | tail _ hlast ih =>
      obtain ⟨n, hn⟩ := ih
      exact ⟨n + 1, .tail hn hlast⟩

theorem exists_pos_iff : (∃ n, 0 < n ∧ Leads R n u w) ↔ Relation.TransGen R u w := by
  rw [Relation.TransGen.head'_iff]
  simp only [← exists_iff]
  constructor
  · rintro ⟨n, hn, h⟩
    obtain ⟨n, rfl⟩ := Nat.exists_eq_succ_of_ne_zero (Nat.ne_of_gt hn)
    obtain ⟨v, hfirst, hrest⟩ := h.exists_head
    exact ⟨v, hfirst, n, hrest⟩
  · rintro ⟨v, hfirst, n, hrest⟩
    exact ⟨n + 1, Nat.succ_pos n, .head hfirst hrest⟩

end Leads

namespace Digraph

/-- An edge leads from the first vertex to the second. -/
def Steps (g : Digraph α) (v w : α) : Prop := (v, w) ∈ g.edges

/-- The limit, if there is one, allows so many steps. -/
def Allows (limit : Option Nat) (n : Nat) : Prop := ∀ l ∈ limit, n ≤ l

theorem allows_succ {limit : Option Nat} {n : Nat} (hspent : limit ≠ some 0) :
    Allows limit (n + 1) ↔ Allows (limit.map (· - 1)) n := by
  cases limit with
  | none => simp [Allows]
  | some l =>
    have hl : l ≠ 0 := fun h => hspent (congrArg some h)
    simp only [Allows, Option.mem_def, Option.some.injEq, forall_eq', Option.map_some]
    omega

theorem Allows.mono {limit : Option Nat} {m n : Nat} (h : Allows limit n) (hmn : m ≤ n) : Allows limit m :=
  fun l hl => Nat.le_trans hmn (h l hl)

/-- A step leads from one of the listed vertices. -/
def Borders (g : Digraph α) (frontier : List α) (w : α) : Prop := ∃ v ∈ frontier, g.Steps v w

/-- A search in rounds. What a round finds among the unseen vertices is the frontier of the next one; the lists may name
it in any order. -/
inductive Search (g : Digraph α) : Option Nat → List α → List α → List α → Prop
  | spent {frontier unseen : List α} : Search g (some 0) frontier unseen []
  | dry {limit : Option Nat} {frontier unseen : List α} :
    (∀ w ∈ unseen, ¬ g.Borders frontier w) → Search g limit frontier unseen []
  | round {limit : Option Nat} {frontier unseen found left later : List α} : limit ≠ some 0 →
    (∀ w, w ∈ found ↔ w ∈ unseen ∧ g.Borders frontier w) → (∀ w, w ∈ left ↔ w ∈ unseen ∧ ¬ g.Borders frontier w) →
    Search g (limit.map (· - 1)) found left later → Search g limit frontier unseen (found ++ later)

/-- A path of so many steps leads to the vertex through unseen vertices only. -/
def Reached (g : Digraph α) (limit : Option Nat) (frontier unseen : List α) (w : α) : Prop :=
  ∃ v ∈ frontier, ∃ n, 0 < n ∧ Allows limit n ∧ Leads (fun a b => g.Steps a b ∧ b ∈ unseen) n v w

section

variable {g : Digraph α} {limit : Option Nat} {frontier unseen : List α} {w : α}

theorem Reached.mem_unseen (h : g.Reached limit frontier unseen w) : w ∈ unseen := by
  obtain ⟨v, -, n, hn, -, hpath⟩ := h
  cases hpath with
  | refl => exact absurd hn (Nat.lt_irrefl 0)
  | tail _ hlast => exact hlast.2

/-- The first step of a path leads to a vertex that the current round finds. -/
theorem Reached.exists_first (h : g.Reached limit frontier unseen w) :
    ∃ v n, (v ∈ unseen ∧ g.Borders frontier v) ∧ Allows limit (n + 1) ∧
      Leads (fun a b => g.Steps a b ∧ b ∈ unseen) n v w := by
  obtain ⟨u, hu, n, hn, hlimit, hpath⟩ := h
  obtain ⟨n, rfl⟩ := Nat.exists_eq_succ_of_ne_zero (Nat.ne_of_gt hn)
  obtain ⟨v, ⟨hstep, hv⟩, hrest⟩ := hpath.exists_head
  exact ⟨v, n, ⟨hv, u, hu, hstep⟩, hlimit, hrest⟩

/-- What one round does: a vertex is reached if the round finds it, or if it is reached from what the round finds
through what it leaves. -/
theorem reached_iff_round {found left : List α} (hspent : limit ≠ some 0)
    (hfound : ∀ w, w ∈ found ↔ w ∈ unseen ∧ g.Borders frontier w)
    (hleft : ∀ w, w ∈ left ↔ w ∈ unseen ∧ ¬ g.Borders frontier w) :
    g.Reached limit frontier unseen w ↔ w ∈ found ∨ g.Reached (limit.map (· - 1)) found left w := by
  constructor
  · intro h
    obtain ⟨v, n, hv, hlimit, hpath⟩ := h.exists_first
    -- beyond the last vertex that the round finds, all vertices are left
    obtain ⟨u, hu, k, hk, hrest⟩ := hpath.after_last (P := fun w => w ∈ found) ((hfound v).mpr hv)
    have hrest : Leads (fun a b => g.Steps a b ∧ b ∈ left) k u w := by
      refine hrest.mono fun a b hab => ⟨hab.1.1, (hleft b).mpr ⟨hab.1.2, fun hb => ?_⟩⟩
      exact hab.2 ((hfound b).mpr ⟨hab.1.2, hb⟩)
    rcases Nat.eq_zero_or_pos k with rfl | hpos
    · cases hrest
      exact .inl hu
    · exact .inr ⟨u, hu, k, hpos, ((allows_succ hspent).mp hlimit).mono hk, hrest⟩
  · rintro (hw | ⟨v, hv, n, hn, hlimit, hpath⟩)
    · obtain ⟨hw, v, hv, hstep⟩ := (hfound w).mp hw
      exact ⟨v, hv, 1, Nat.one_pos, (allows_succ hspent).mpr fun _ _ => Nat.zero_le _, .tail .refl ⟨hstep, hw⟩⟩
    · obtain ⟨hmem, u, hu, hstep⟩ := (hfound v).mp hv
      have hpath : Leads (fun a b => g.Steps a b ∧ b ∈ unseen) n v w :=
        hpath.mono fun a b hab => ⟨hab.1, ((hleft b).mp hab.2).1⟩
      exact ⟨u, hu, n + 1, Nat.succ_pos n, (allows_succ hspent).mpr hlimit, .head ⟨hstep, hmem⟩ hpath⟩

/-- A search finds the vertices that are reached, whatever order its rounds use. -/
theorem Search.mem_iff {found : List α} (h : g.Search limit frontier unseen found) :
    w ∈ found ↔ g.Reached limit frontier unseen w := by
  induction h with
  | spent =>
    simp only [List.not_mem_nil, false_iff]
    rintro ⟨v, -, n, hn, hlimit, -⟩
    exact absurd (hlimit 0 rfl) (Nat.not_le_of_gt hn)
  | dry hdry =>
    simp only [List.not_mem_nil, false_iff]
    intro h
    obtain ⟨v, n, ⟨hv, hborder⟩, -⟩ := h.exists_first
    exact hdry v hv hborder
  | round hspent hfound hleft _ ih => rw [List.mem_append, reached_iff_round hspent hfound hleft, ih]

end

section

variable [BEq α] [Hashable α] {g : Digraph α} {limit : Option Nat} {frontier unseen : List α} {w : α}

theorem mem_within {set : Std.HashSet α} {vs : List α} : w ∈ within set vs ↔ w ∈ vs ∧ set.contains w = true :=
  List.mem_filter

theorem mem_without {set : Std.HashSet α} {vs : List α} : w ∈ without set vs ↔ w ∈ vs ∧ ¬ set.contains w = true := by
  simp [without]

/-- A limit of as many steps as there are unseen vertices is none: each round but the last finds one of them. -/
theorem reachAmong_of_length_le {l : Nat} (h : unseen.length ≤ l) :
    g.reachAmong (some l) frontier unseen = g.reachAmong none frontier unseen := by
  induction l generalizing frontier unseen with
  | zero =>
    obtain rfl := List.eq_nil_of_length_eq_zero (Nat.le_zero.mp h)
    simp [reachAmong, within]
  | succ l ih =>
    rw [reachAmong, reachAmong]
    simp only [Option.some.injEq, Nat.succ_ne_zero, if_false, reduceCtorEq, Option.map_some, Nat.succ_sub_one,
      Option.map_none]
    split
    · rfl
    · rename_i hfound
      have hlt := length_without_lt hfound
      rw [ih (by omega)]

variable [LawfulBEq α]

theorem contains_successors {tails : List α} : (g.successors tails).contains w = true ↔ g.Borders tails w := by
  simp only [successors, Std.HashSet.contains_ofList, List.contains_iff_mem, List.mem_map, List.mem_filter, Prod.exists,
    exists_eq_right, Borders, Steps]
  exact exists_congr fun v => and_comm

theorem search_reachAmong (g : Digraph α) (limit : Option Nat) (frontier unseen : List α) :
    g.Search limit frontier unseen (g.reachAmong limit frontier unseen) := by
  fun_induction g.reachAmong limit frontier unseen with
  | case1 frontier unseen => exact .spent
  | case2 limit frontier unseen _ heads hnone =>
    refine .dry fun w hw hborder => ?_
    have hmem : w ∈ within heads unseen := mem_within.mpr ⟨hw, contains_successors.mpr hborder⟩
    simp [hnone] at hmem
  | case3 limit frontier unseen hspent heads _ ih =>
    refine .round hspent (fun w => ?_) (fun w => ?_) ih
    · rw [mem_within, contains_successors]
    · rw [mem_without, contains_successors]

theorem mem_reachAmong : w ∈ g.reachAmong limit frontier unseen ↔ g.Reached limit frontier unseen w :=
  (search_reachAmong g limit frontier unseen).mem_iff

end

end Digraph

end Linkage
