import Mathlib.Algebra.Order.BigOperators.Group.List
import Mathlib.Data.List.Count
import Mathlib.Data.List.Flatten
import Mathlib.Data.List.Sort
import Mathlib.Data.List.TakeWhile

/-! LIMIT clauses. A query that looks at `n` groups of rows only, and at `n`
rows of each only, still finds `n` rows if there are so many. With ORDER BY,
a row is within the limit when few rows sort before it. -/
namespace NestedLimit

variable {α : Type*}

/-- At most `n` rows of each of at most `n` groups. -/
def limitGroups (n : Nat) (groups : List (List α)) : List α :=
  ((groups.take n).map (List.take n)).flatten

theorem limitGroups_sublist (n : Nat) (groups : List (List α)) :
    (limitGroups n groups).Sublist groups.flatten := by
  have hEach : ∀ rows : List (List α), ((rows.map (List.take n)).flatten).Sublist rows.flatten := by
    intro rows
    induction rows with
    | nil => simp
    | cons group rest ih => simpa using (List.take_sublist n group).append ih
  exact (hEach _).trans (List.take_sublist n groups).flatten

/-- Limits on the groups cost nothing below an equal limit on the result. -/
private theorem min_length_map_take (n : Nat) (groups : List (List α)) :
    min n ((groups.map (List.take n)).flatten).length = min n groups.flatten.length := by
  induction groups with
  | nil => rfl
  | cons group rest ih =>
      simp only [List.map_cons, List.flatten_cons, List.length_append, List.length_take]
      omega

/-- As many groups as the limit are enough, since each has a row. -/
theorem min_length_limitGroups (n : Nat) {groups : List (List α)}
    (hRows : ∀ group ∈ groups, group ≠ []) :
    min n (limitGroups n groups).length = min n groups.flatten.length := by
  rw [limitGroups, min_length_map_take]
  have hLength : ∀ gs : List (List α), (∀ g ∈ gs, g ≠ []) → gs.length ≤ gs.flatten.length := by
    intro gs hGs
    rw [List.length_flatten, ← List.length_map List.length]
    refine List.length_le_sum_of_one_le _ fun k hk => ?_
    obtain ⟨g, hg, rfl⟩ := List.mem_map.mp hk
    exact List.length_pos_iff.mpr (hGs g hg)
  by_cases hMany : n ≤ groups.length
  · have hTaken := hLength (groups.take n) fun g hg => hRows g (List.mem_of_mem_take hg)
    have hAll := hLength groups hRows
    rw [List.length_take, min_eq_left hMany] at hTaken
    rw [min_eq_left hTaken, min_eq_left (hMany.trans hAll)]
  · rw [List.take_of_length_le (Nat.le_of_not_le hMany)]

section First

variable [DecidableEq α]

/-- The same rows with one of them in front. -/
def moveToFront (a : α) (rows : List α) : List α :=
  if a ∈ rows then a :: rows.erase a else rows

theorem moveToFront_perm (a : α) (rows : List α) : (moveToFront a rows).Perm rows := by
  unfold moveToFront
  split
  · exact (List.perm_cons_erase ‹_›).symm
  · exact .refl rows

theorem mem_take_moveToFront {a : α} {rows : List α} (ha : a ∈ rows) {n : Nat} (hn : 0 < n) :
    a ∈ (moveToFront a rows).take n := by
  obtain ⟨k, rfl⟩ : ∃ k, n = k + 1 := ⟨n - 1, by omega⟩
  simp [moveToFront, ha]

end First

section OrderBy

variable (r : α → α → Prop) [DecidableRel r]

/-- A row within the limit has fewer rows than the limit before it. -/
theorem countP_lt_of_mem_take {rows : List α} (hSorted : rows.Pairwise r) {a : α} {n : Nat}
    (ha : a ∈ rows.take n) (hRefl : r a a) : rows.countP (¬ r a ·) < n := by
  have hSplit : rows.countP (¬ r a ·) =
      (rows.take n).countP (¬ r a ·) + (rows.drop n).countP (¬ r a ·) := by
    rw [← List.countP_append, List.take_append_drop]
  have hLater : (rows.drop n).countP (¬ r a ·) = 0 := by
    rw [List.countP_eq_zero]
    intro b hb
    rw [← List.take_append_drop n rows] at hSorted
    simpa using (List.pairwise_append.mp hSorted).2.2 a ha b hb
  have hEarlier : (rows.take n).countP (¬ r a ·) < (rows.take n).length :=
    List.countP_lt_length_iff.mpr ⟨a, ha, by simpa using hRefl⟩
  have hLength := List.length_take_le n rows
  omega

/-- A sort that puts a row before its ties has it within any limit that
leaves room for the rows before it. -/
theorem mem_take_insertionSort [DecidableEq α] {rows : List α} {a : α} (ha : a ∈ rows) {n : Nat}
    (hBefore : rows.countP (¬ r a ·) < n) :
    a ∈ ((moveToFront a rows).insertionSort r).take n := by
  rw [moveToFront, if_pos ha, List.insertionSort_cons, List.orderedInsert_eq_take_drop]
  have hShort : (((rows.erase a).insertionSort r).takeWhile fun b => ¬ r a b).length < n := by
    have hTaken : ∀ b ∈ ((rows.erase a).insertionSort r).takeWhile (fun b => ¬ r a b),
        (decide ¬ r a b) = true := by
      intro b hb
      simpa using List.mem_takeWhile_imp hb
    calc
      _ = (((rows.erase a).insertionSort r).takeWhile fun b => ¬ r a b).countP (¬ r a ·) :=
        (List.countP_eq_length.mpr hTaken).symm
      _ ≤ ((rows.erase a).insertionSort r).countP (¬ r a ·) := (List.takeWhile_sublist _).countP_le
      _ = (rows.erase a).countP (¬ r a ·) := (List.perm_insertionSort r _).countP_eq _
      _ ≤ rows.countP (¬ r a ·) := List.erase_sublist.countP_le
      _ < n := hBefore
  rw [List.take_append]
  apply List.mem_append_right
  obtain ⟨k, hk⟩ := Nat.exists_eq_succ_of_ne_zero (Nat.sub_ne_zero_of_lt hShort)
  rw [hk, List.take_succ_cons]
  exact List.mem_cons_self

end OrderBy

end NestedLimit
