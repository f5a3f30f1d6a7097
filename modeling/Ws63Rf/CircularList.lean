import Mathlib.Data.List.Cycle

/-! Circular lists, given by one turn from a sentinel. The sentinel follows the
last node; the successor is Mathlib's cyclic `List.next`. -/
namespace Ws63Rf.CircularList

variable {α : Type} [DecidableEq α] {sentinel node : α} {front rest : List α}

private theorem nextOr_after (front : List α) (fresh : node ∉ front) (rest : List α)
    (fallback : α) :
    (front ++ node :: rest).nextOr node fallback = rest.headD fallback := by
  induction front with
  | nil => cases rest <;> simp
  | cons first front ih =>
    have other : node ≠ first := fun same => fresh (same ▸ List.mem_cons_self)
    rw [List.cons_append, List.nextOr_cons_of_ne _ _ _ _ other]
    exact ih (fun member => fresh (List.mem_cons_of_mem _ member))

omit [DecidableEq α] in
private theorem not_before (nodup : (sentinel :: (front ++ node :: rest)).Nodup) :
    node ∉ sentinel :: front := by
  intro held
  rw [← List.cons_append, List.nodup_append] at nodup
  exact nodup.2.2 node held node List.mem_cons_self rfl

/-- A node's successor is the one behind it, or the sentinel at the end. -/
theorem next_node (nodup : (sentinel :: (front ++ node :: rest)).Nodup)
    (member : node ∈ sentinel :: (front ++ node :: rest)) :
    (sentinel :: (front ++ node :: rest)).next node member = rest.headD sentinel :=
  nextOr_after (sentinel :: front) (not_before nodup) rest sentinel

/-- The successor of the last node of a run is what lies behind the run. -/
theorem next_last {run : List α} (nodup : (sentinel :: (front ++ (run ++ rest))).Nodup)
    (ended : run.getLast? = some node) (member : node ∈ sentinel :: (front ++ (run ++ rest))) :
    (sentinel :: (front ++ (run ++ rest))).next node member = rest.headD sentinel := by
  obtain ⟨before, rfl⟩ := List.getLast?_eq_some_iff.mp ended
  have around : front ++ ((before ++ [node]) ++ rest) = (front ++ before) ++ node :: rest := by simp
  simp only [around]
  rw [around] at nodup
  exact next_node nodup _

/-- Unlinking a node joins what was on its two sides. -/
theorem erase_node (nodup : (sentinel :: (front ++ node :: rest)).Nodup) :
    (sentinel :: (front ++ node :: rest)).erase node = sentinel :: (front ++ rest) := by
  rw [← List.cons_append, List.erase_append_right _ (not_before nodup), List.erase_cons_head,
    List.cons_append]

theorem nodup_unlinked (nodup : (sentinel :: (front ++ node :: rest)).Nodup) :
    (sentinel :: (front ++ rest)).Nodup := by
  rw [← erase_node nodup]
  exact nodup.erase node

end Ws63Rf.CircularList
