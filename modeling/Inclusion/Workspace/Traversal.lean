/-!
# Breadth-first order

The order in which the names of a graph are met from a queue of names, each at most once and only
while it is pending. A name that is met leaves the pending names, so the search ends.

* `traverse_nodup`: no name is met twice if none is pending twice.
* `mem_pending_of_mem_traverse`: only pending names are met.
-/
namespace Inclusion

/-- The pending names that are met from a queue, in breadth-first order. -/
def traverse (edges : String → List String) (pending queue : List String) : List String :=
  match queue with
  | [] => []
  | name :: queue =>
    if name ∈ pending then
      name :: traverse edges (pending.erase name) (queue ++ edges name)
    else traverse edges pending queue
termination_by (pending.length, queue.length)
decreasing_by
  · next h =>
    have hlt : (pending.erase name).length < pending.length := by
      rw [List.length_erase_of_mem h]
      exact Nat.sub_one_lt fun h0 => by simp [List.eq_nil_of_length_eq_zero h0] at h
    exact Prod.Lex.left _ _ hlt
  · exact Prod.Lex.right _ (by simp)

theorem mem_pending_of_mem_traverse {edges : String → List String} {pending queue : List String}
    {name : String} (h : name ∈ traverse edges pending queue) : name ∈ pending := by
  fun_induction traverse edges pending queue with
  | case1 => simp at h
  | case2 pending first queue hmem ih =>
    rcases List.mem_cons.mp h with h | h
    · exact h ▸ hmem
    · exact List.mem_of_mem_erase (ih h)
  | case3 pending first queue hmem ih => exact ih h

theorem traverse_nodup {edges : String → List String} {pending : List String}
    (h : pending.Nodup) (queue : List String) : (traverse edges pending queue).Nodup := by
  fun_induction traverse edges pending queue with
  | case1 => simp
  | case2 pending first queue hmem ih =>
    refine List.nodup_cons.mpr ⟨fun hin => ?_, ih (h.erase first)⟩
    exact h.not_mem_erase (mem_pending_of_mem_traverse hin)
  | case3 pending first queue hmem ih => exact ih h

end Inclusion
