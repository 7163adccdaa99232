import Mathlib.Data.List.Nodup
import Mathlib.Data.List.Sublists
import Mathlib.Data.List.Perm.Basic

/-! Lists that are stored only through predecessor links. A table of pairs
`(element, predecessor)` in no particular order represents a list when it is a
permutation of the links of that list. Nothing else records the order. -/
namespace PredecessorLinks

variable {α : Type*}

/-- Every element together with the one before it; the first element is
linked to the sentinel `start`. -/
def links (start : α) : List α → List (α × α)
  | [] => []
  | a :: rest => (a, start) :: links a rest

theorem links_append (start : α) (l m : List α) :
    links start (l ++ m) = links start l ++ links (l.getLastD start) m := by
  induction l generalizing start with
  | nil => rfl
  | cons a rest ih => simp only [List.cons_append, links, ih, List.getLastD_cons]

@[simp] theorem map_fst_links (start : α) (l : List α) :
    (links start l).map Prod.fst = l := by
  induction l generalizing start with
  | nil => rfl
  | cons a rest ih => simp [links, ih]

/-- The predecessors are the sentinel and every element but the last. -/
@[simp] theorem map_snd_links (start : α) (l : List α) :
    (links start l).map Prod.snd = (start :: l).dropLast := by
  induction l generalizing start with
  | nil => rfl
  | cons a rest ih => simp [links, ih]

theorem cons_eq_dropLast_append_getLastD (start : α) (l : List α) :
    start :: l = (start :: l).dropLast ++ [l.getLastD start] := by
  induction l generalizing start with
  | nil => rfl
  | cons a rest ih =>
      rw [List.dropLast_cons_cons, List.getLastD_cons, List.cons_append, ← ih]

/-- Removing others leaves the last element the last. -/
theorem getLastD_of_sublist {l m : List α} {start : α} (hNodup : l.Nodup) (hSub : m.Sublist l)
    (hKept : l = [] ∨ l.getLastD start ∈ m) : m.getLastD start = l.getLastD start := by
  rcases List.eq_nil_or_concat' l with rfl | ⟨init, a, rfl⟩
  · rw [List.sublist_nil.mp hSub]
  · rw [List.getLastD_concat] at hKept ⊢
    have hIn : a ∈ m := hKept.resolve_left (by simp)
    obtain ⟨m₁, m₂, rfl, hInit, hLast⟩ := List.sublist_append_iff.mp hSub
    rcases List.sublist_singleton.mp hLast with rfl | rfl
    · rw [List.append_nil] at hIn
      exact absurd rfl ((List.nodup_append.mp hNodup).2.2 a (hInit.subset hIn) a (by simp))
    · rw [List.getLastD_concat]

/-- The table stores exactly the links of a duplicate-free list that avoids
the sentinel, in an arbitrary physical order. -/
structure Represents (table : List (α × α)) (start : α) (l : List α) : Prop where
  perm : table.Perm (links start l)
  nodup : (start :: l).Nodup

namespace Represents

variable {table : List (α × α)} {start : α} {l : List α}

theorem empty (start : α) : Represents [] start [] :=
  ⟨List.Perm.nil, by simp⟩

theorem mem_iff (h : Represents table start l) (a : α) :
    a ∈ l ↔ ∃ p, (a, p) ∈ table := by
  have hFst : a ∈ table.map Prod.fst ↔ a ∈ l := by
    rw [(h.perm.map Prod.fst).mem_iff, map_fst_links]
  rw [← hFst]
  simp

theorem snd_nodup (h : Represents table start l) : (table.map Prod.snd).Nodup := by
  rw [(h.perm.map Prod.snd).nodup_iff, map_snd_links]
  exact h.nodup.sublist (List.dropLast_sublist _)

theorem start_not_mem (h : Represents table start l) : start ∉ l :=
  (List.nodup_cons.mp h.nodup).1

/-- A link never leaves the represented list. -/
theorem pred_mem (h : Represents table start l) {a p : α} (hLink : (a, p) ∈ table) :
    p = start ∨ p ∈ l := by
  have hSnd : p ∈ table.map Prod.snd := List.mem_map_of_mem hLink
  rw [(h.perm.map Prod.snd).mem_iff, map_snd_links] at hSnd
  simpa using (List.dropLast_sublist _).subset hSnd

/-- Only the final element is no one's predecessor. An empty list ends at
the sentinel itself. -/
theorem unreferenced_iff (h : Represents table start l) {a : α} (ha : a = start ∨ a ∈ l) :
    (∀ b, (b, a) ∉ table) ↔ a = l.getLastD start := by
  have hSnd : (∃ b, (b, a) ∈ table) ↔ a ∈ (start :: l).dropLast := by
    rw [← map_snd_links, ← (h.perm.map Prod.snd).mem_iff]
    simp
  have hMem : a ∈ (start :: l).dropLast ++ [l.getLastD start] := by
    rw [← cons_eq_dropLast_append_getLastD]
    simpa using ha
  have hNodup := h.nodup
  rw [cons_eq_dropLast_append_getLastD] at hNodup
  have hDisjoint := (List.nodup_append.mp hNodup).2.2
  rw [← not_exists, hSnd]
  constructor
  · intro hNot
    simpa [hNot] using hMem
  · rintro rfl hIn
    exact hDisjoint _ hIn _ (by simp) rfl

/-- The element linked to the sentinel is the head. -/
theorem head_iff (h : Represents table start l) (a : α) :
    (a, start) ∈ table ↔ l.head? = some a := by
  rw [h.perm.mem_iff]
  cases l with
  | nil => simp [links]
  | cons b rest =>
      have hStart : start ∉ b :: rest := h.start_not_mem
      have hRest : (a, start) ∉ links b rest := by
        intro hIn
        have hSnd : start ∈ (links b rest).map Prod.snd := List.mem_map_of_mem hIn
        rw [map_snd_links] at hSnd
        exact hStart ((List.dropLast_sublist _).subset hSnd)
      simp [links, hRest, eq_comm]

/-- Linking a fresh list behind the last element appends it. -/
theorem append {more : List (α × α)} {m : List α} (h : Represents table start l)
    (hMore : more.Perm (links (l.getLastD start) m)) (hNodup : (start :: (l ++ m)).Nodup) :
    Represents (table ++ more) start (l ++ m) where
  perm := by
    rw [links_append]
    exact h.perm.append hMore
  nodup := hNodup

/-- Behind a first part of the list, the next element is linked to the end
of that part. -/
theorem eq_getLastD_of_mem {a p : α} {m : List α} (h : Represents table start (l ++ a :: m))
    (hLink : (a, p) ∈ table) : p = l.getLastD start := by
  have hNext : (a, l.getLastD start) ∈ links start (l ++ a :: m) := by
    rw [links_append]
    simp [links]
  have hFst : ((links start (l ++ a :: m)).map Prod.fst).Nodup := by
    rw [map_fst_links]
    exact (List.nodup_cons.mp h.nodup).2
  exact congrArg Prod.snd (List.inj_on_of_nodup_map hFst (h.perm.mem_iff.mp hLink) hNext rfl)

/-- A further list may only be linked behind the last element, if no two
elements share a predecessor. -/
theorem eq_getLastD_of_snd_nodup (h : Represents table start l) {a p : α} {m : List α}
    (hp : p = start ∨ p ∈ l) (hNodup : ((table ++ links p (a :: m)).map Prod.snd).Nodup) :
    p = l.getLastD start := by
  apply (h.unreferenced_iff hp).mp
  intro b hLink
  rw [List.map_append] at hNodup
  have hDisjoint := (List.nodup_append.mp hNodup).2.2
  exact hDisjoint p (List.mem_map_of_mem hLink) p (by simp [links]) rfl

end Represents

section Follow

variable [DecidableEq α]

/-- Read a table along its links. The fuel bounds the number of elements. -/
def follow (table : List (α × α)) : Nat → α → List α
  | 0, _ => []
  | fuel + 1, p => match table.find? (fun e => e.2 = p) with
      | none => []
      | some e => e.1 :: follow table fuel e.1

/-- Reading from the middle of a represented list yields the rest of it.
The induction is on the rest; what was already read is its accumulator. -/
theorem follow_suffix {table : List (α × α)} {start : α} (done rest : List α)
    (h : Represents table start (done ++ rest)) (fuel : Nat) (hFuel : rest.length ≤ fuel) :
    follow table fuel (done.getLastD start) = rest := by
  induction rest generalizing done fuel with
  | nil =>
      cases fuel with
      | zero => rfl
      | succ fuel =>
          rw [List.append_nil] at h
          have hLast : ∀ b, (b, done.getLastD start) ∉ table := by
            refine (h.unreferenced_iff ?_).mpr rfl
            have := cons_eq_dropLast_append_getLastD start done
            have hIn : done.getLastD start ∈ start :: done := by rw [this]; simp
            simpa using hIn
          have hFind : table.find? (fun e => e.2 = done.getLastD start) = none := by
            rw [List.find?_eq_none]
            rintro ⟨b, p⟩ hIn hEq
            simp only [decide_eq_true_eq] at hEq
            exact hLast b (hEq ▸ hIn)
          simp only [follow, hFind]
  | cons a rest ih =>
      cases fuel with
      | zero => simp at hFuel
      | succ fuel =>
          have hLink : (a, done.getLastD start) ∈ table := by
            rw [h.perm.mem_iff, links_append]
            simp [links]
          have hFind : table.find? (fun e => e.2 = done.getLastD start) =
              some (a, done.getLastD start) := by
            cases hResult : table.find? (fun e => e.2 = done.getLastD start) with
            | none =>
                rw [List.find?_eq_none] at hResult
                exact absurd (hResult _ hLink) (by simp)
            | some e =>
                have hPred : e.2 = done.getLastD start := by
                  simpa using List.find?_some hResult
                have hIn := List.mem_of_find?_eq_some hResult
                rw [List.inj_on_of_nodup_map h.snd_nodup hIn hLink hPred]
          have hRest := ih (done ++ [a]) (by simpa using h) fuel (by simpa using hFuel)
          simp only [follow, hFind]
          rw [List.getLastD_concat] at hRest
          rw [hRest]

/-- The represented list is determined by the table and can be read off it. -/
theorem Represents.follow_eq {table : List (α × α)} {start : α} {l : List α}
    (h : Represents table start l) : follow table table.length start = l := by
  have hLength : l.length = table.length := by
    rw [h.perm.length_eq, ← List.length_map (f := Prod.fst), map_fst_links]
  exact follow_suffix [] l h table.length hLength.le

end Follow

section Relink

/-- Delete the elements that are `gone` and hand their successors over to
the sentinel, as a foreign key with a default value does. -/
def relink (gone : α → Bool) (start : α) (table : List (α × α)) : List (α × α) :=
  (table.filter fun e => !gone e.1).map fun e => (e.1, if gone e.2 then start else e.2)

/-- No removed element lies between two survivors. -/
def Contiguous (gone : α → Bool) (l : List α) : Prop :=
  ∀ a b c, [a, b, c].Sublist l → gone a = false → gone c = false → gone b = false

variable {gone : α → Bool} {start : α}

/-- Only the first element may be removed. -/
theorem contiguous_of_tail {l : List α} (h : ∀ b ∈ l.tail, gone b = false) : Contiguous gone l :=
  fun _ b _ hTriple _ _ => h b (hTriple.tail.subset (by simp))

theorem Contiguous.sublist {l m : List α} (h : Contiguous gone l) (hSub : m.Sublist l) :
    Contiguous gone m :=
  fun a b c hTriple => h a b c (hTriple.trans hSub)

theorem relink_append (first second : List (α × α)) :
    relink gone start (first ++ second) = relink gone start first ++ relink gone start second := by
  simp [relink]

theorem relink_cons_gone {a p : α} {table : List (α × α)} (h : gone a = true) :
    relink gone start ((a, p) :: table) = relink gone start table := by
  simp [relink, h]

theorem relink_cons_kept {a p : α} {table : List (α × α)} (h : gone a = false) :
    relink gone start ((a, p) :: table) =
      (a, if gone p then start else p) :: relink gone start table := by
  simp [relink, h]

theorem relink_eq_nil {p : α} {l : List α} (h : ∀ a ∈ l, gone a = true) :
    relink gone start (links p l) = [] := by
  induction l generalizing p with
  | nil => rfl
  | cons a rest ih =>
      rw [links, relink_cons_gone (h a (by simp))]
      exact ih fun b hb => h b (by simp [hb])

/-- Behind a survivor, the kept links form an unbroken segment: the first
removed element is followed by removed elements only. -/
theorem relink_after_kept {a : α} {rest : List α} (ha : gone a = false)
    (h : Contiguous gone (a :: rest)) :
    relink gone start (links a rest) = links a (rest.filter fun b => !gone b) := by
  induction rest generalizing a with
  | nil => rfl
  | cons b rest ih =>
      cases hb : gone b with
      | false =>
          have hTail := ih hb (h.sublist (List.sublist_cons_self _ _))
          rw [links, relink_cons_kept hb, hTail]
          simp [ha, hb, links]
      | true =>
          have hAll : ∀ c ∈ rest, gone c = true := by
            intro c hc
            by_contra hKept
            have hTriple : [a, b, c].Sublist (a :: b :: rest) :=
              ((List.singleton_sublist.mpr hc).cons_cons b).cons_cons a
            have := h a b c hTriple ha (by simpa using hKept)
            simp [hb] at this
          have hNone : (rest.filter fun c => !gone c) = [] := by
            rw [List.filter_eq_nil_iff]
            intro c hc
            simp [hAll c hc]
          rw [links, relink_cons_gone hb, relink_eq_nil hAll]
          simp [hb, hNone, links]

/-- Relinking a contiguous remainder yields the links of the remainder. The
predecessor `p` in front of the scanned part is the sentinel or removed. -/
theorem relink_links {p : α} {l : List α} (hp : (if gone p then start else p) = start)
    (h : Contiguous gone l) :
    relink gone start (links p l) = links start (l.filter fun a => !gone a) := by
  induction l generalizing p with
  | nil => rfl
  | cons a rest ih =>
      cases ha : gone a with
      | false =>
          rw [links, relink_cons_kept ha, hp, relink_after_kept ha h]
          simp [ha, links]
      | true =>
          rw [links, relink_cons_gone ha, ih (by simp [ha]) (h.sublist (List.sublist_cons_self _ _))]
          simp [ha]

/-- The first survivor behind a removed predecessor is promoted to head. -/
theorem exists_promoted {p : α} {l : List α} (hp : (if gone p then start else p) = start)
    (h : ∃ c ∈ l, gone c = false) :
    ∃ a ∈ l, (a, start) ∈ relink gone start (links p l) := by
  induction l generalizing p with
  | nil => simp at h
  | cons a rest ih =>
      cases ha : gone a with
      | false =>
          rw [links, relink_cons_kept ha, hp]
          exact ⟨a, by simp, by simp⟩
      | true =>
          obtain ⟨c, hc, hKept⟩ := h
          have hRest : c ∈ rest := by
            rcases List.mem_cons.mp hc with rfl | hc
            · simp [ha] at hKept
            · exact hc
          obtain ⟨b, hb, hLink⟩ := ih (p := a) (by simp [ha]) ⟨c, hRest, hKept⟩
          rw [links, relink_cons_gone ha]
          exact ⟨b, List.mem_cons_of_mem _ hb, hLink⟩

/-- A gap between survivors promotes two different elements. -/
theorem exists_two_promoted {l : List α} (hNodup : l.Nodup) (hStart : gone start = false)
    (h : ¬ Contiguous gone l) :
    ∃ a c, a ≠ c ∧ (a, start) ∈ relink gone start (links start l) ∧
      (c, start) ∈ relink gone start (links start l) := by
  simp only [Contiguous, not_forall] at h
  obtain ⟨a, b, c, hTriple, ha, hc, hb⟩ := h
  obtain ⟨first, second, rfl, haFirst, hPair⟩ := List.cons_sublist_iff.mp hTriple
  obtain ⟨third, fourth, rfl, hbThird, hSingle⟩ := List.cons_sublist_iff.mp hPair
  obtain ⟨before, after, rfl⟩ := List.append_of_mem hbThird
  have hcFourth : c ∈ fourth := List.singleton_sublist.mp hSingle
  have hbGone : gone b = true := by simpa using hb
  obtain ⟨x, hx, hxLink⟩ : ∃ x ∈ first, (x, start) ∈ relink gone start (links start first) :=
    exists_promoted (by simp [hStart]) ⟨a, haFirst, ha⟩
  obtain ⟨y, hy, hyLink⟩ : ∃ y ∈ after ++ fourth,
      (y, start) ∈ relink gone start (links b (after ++ fourth)) :=
    exists_promoted (by simp [hbGone]) ⟨c, by simp [hcFourth], hc⟩
  have hSplit : links start (first ++ (before ++ b :: after ++ fourth)) =
      links start first ++ (links (first.getLastD start) before ++
        (b, before.getLastD (first.getLastD start)) :: links b (after ++ fourth)) := by
    rw [links_append, List.append_assoc, links_append]
    rfl
  refine ⟨x, y, ?_, ?_, ?_⟩
  · rintro rfl
    have hDisjoint := (List.nodup_append.mp hNodup).2.2
    exact hDisjoint x hx x (by simp only [List.mem_append, List.mem_cons] at hy ⊢; tauto) rfl
  · rw [hSplit, relink_append]
    exact List.mem_append_left _ hxLink
  · rw [hSplit, relink_append, relink_append, relink_cons_gone hbGone]
    exact List.mem_append_right _ (List.mem_append_right _ hyLink)

theorem relink_perm {first second : List (α × α)} (h : first.Perm second) :
    (relink gone start first).Perm (relink gone start second) :=
  (h.filter _).map _

/-- A table relinked over a contiguous remainder represents the remainder. -/
theorem Represents.relink {table : List (α × α)} {l : List α} (h : Represents table start l)
    (hStart : gone start = false) (hContiguous : Contiguous gone l) :
    Represents (relink gone start table) start (l.filter fun a => !gone a) where
  perm := by
    rw [← relink_links (p := start) (by simp [hStart]) hContiguous]
    exact relink_perm h.perm
  nodup := h.nodup.sublist ((List.filter_sublist).cons_cons start)

/-- A uniqueness constraint on predecessors accepts the relinked table
exactly when the survivors are contiguous. -/
theorem Represents.relink_snd_nodup_iff {table : List (α × α)} {l : List α}
    (h : Represents table start l) (hStart : gone start = false) :
    ((PredecessorLinks.relink gone start table).map Prod.snd).Nodup ↔ Contiguous gone l := by
  constructor
  · intro hNodup
    by_contra hGap
    obtain ⟨a, c, hne, ha, hc⟩ := exists_two_promoted (List.nodup_cons.mp h.nodup).2 hStart hGap
    have hPerm : (PredecessorLinks.relink gone start table).Perm
        (PredecessorLinks.relink gone start (links start l)) := relink_perm h.perm
    have hEq := List.inj_on_of_nodup_map hNodup (hPerm.mem_iff.mpr ha) (hPerm.mem_iff.mpr hc) rfl
    exact hne (congrArg Prod.fst hEq)
  · intro hContiguous
    exact (h.relink hStart hContiguous).snd_nodup

end Relink

end PredecessorLinks
