import Ws63Rf.CircularList
import Ws63Rf.NetbufList
import Mathlib.Algebra.GroupWithZero.Nat

/-! `hmac_rx_free_netbuf_list` on a circular list: what one call releases, and
what sequences of calls on one cursor do. -/
namespace Ws63Rf.NetbufListProofs
open NetbufList CircularList

variable {Mem Node : Type} [DecidableEq Node] {ops : NetbufOps Mem Node}
  {circle : Mem → List Node} {allocated : Mem → Set Node} {netbufHdr : Node}

/-- The list under this head is `front ++ todo`, and the cursor is on the first
of `todo`, or on the head where nothing is left. -/
structure At (circle : Mem → List Node) (netbufHdr : Node) (front todo : List Node)
    (world : World Mem Node) : Prop where
  list : circle world.mem = netbufHdr :: (front ++ todo)
  nodup : (netbufHdr :: (front ++ todo)).Nodup
  cursor : world.pstNetbuf = todo.headD netbufHdr

/-- The calls that release these nodes: for each its successor is read before
it is unlinked and freed. -/
def callsFor (nodes : List Node) : List (Call Node) :=
  nodes.flatMap fun node => [.next node, .delete node, .free node]

/-- What was released on the way from one state to the other: these nodes, as
`callsFor` has it, and they are what is no longer allocated. -/
structure Frees (allocated : Mem → Set Node) (nodes : List Node) (before after : World Mem Node) :
    Prop where
  calls : after.calls = before.calls ++ callsFor nodes
  released : allocated after.mem = allocated before.mem \ {node | node ∈ nodes}

omit [DecidableEq Node] in
theorem Frees.nothing (world : World Mem Node) : Frees allocated [] world world := by
  constructor <;> simp [callsFor]

omit [DecidableEq Node] in
theorem Frees.append {before between after : World Mem Node}
    (first : Frees allocated nodes before between) (second : Frees allocated nodes' between after) :
    Frees allocated (nodes ++ nodes') before after := by
  constructor
  · rw [second.calls, first.calls, callsFor, callsFor, callsFor, List.flatMap_append,
      List.append_assoc]
  · ext node
    simp only [second.released, first.released, Set.mem_sdiff, Set.mem_ofPred_eq, List.mem_append,
      not_or, and_assoc]

/-! ## One call -/

omit [DecidableEq Node] in
theorem freeOne_calls (world : World Mem Node) :
    (freeOne ops netbufHdr world).calls = world.calls ++ callsFor [world.pstNetbuf] := by
  simp [freeOne, callNext, callDelete, callFree, callsFor]

theorem freeOne_at (documented : Documented ops circle allocated)
    (start : At circle netbufHdr front (node :: rest) world) :
    At circle netbufHdr front rest (freeOne ops netbufHdr world) ∧
      Frees allocated [node] world (freeOne ops netbufHdr world) := by
  obtain ⟨list, nodup, cursor⟩ := start
  have here : world.pstNetbuf = node := cursor
  have linked : node ∈ circle world.mem := by simp [list]
  have unlinked : circle (ops.oalNetbufDelete world.mem node netbufHdr) =
      netbufHdr :: (front ++ rest) := by
    rw [documented.delete _ _ _ linked (by rw [list]; rfl), list]
    exact erase_node nodup
  refine ⟨⟨?_, nodup_unlinked nodup, ?_⟩, ?_, ?_⟩
  · simp only [freeOne, callNext, callDelete, callFree, here, documented.free, unlinked]
  · simp only [freeOne, callNext, here]
    rw [documented.next _ _ linked]
    simp only [list]
    exact next_node nodup _
  · rw [freeOne_calls, here]
  · simp only [freeOne, callNext, callDelete, callFree, here, documented.free_allocated,
      documented.delete_allocated, List.mem_singleton, Set.ofPred_eq_eq_singleton]

/-- A call releases the next nodes in order, as many as it is asked to or as
there are, and leaves the cursor behind them. -/
theorem freeLoop_at (documented : Documented ops circle allocated) (turns : Nat)
    (start : At circle netbufHdr front todo world) (onNode : 0 < turns → todo ≠ []) :
    At circle netbufHdr front (todo.drop turns) (freeLoop ops netbufHdr turns world) ∧
      Frees allocated (todo.take turns) world (freeLoop ops netbufHdr turns world) := by
  induction turns generalizing todo world with
  | zero => exact ⟨start, Frees.nothing world⟩
  | succ turns ih =>
    cases todo with
    | nil => exact absurd rfl (onNode (Nat.succ_pos turns))
    | cons node rest =>
      obtain ⟨next, first⟩ := freeOne_at documented start
      cases rest with
      | nil =>
        have atHead : netbufHdr = (freeOne ops netbufHdr world).pstNetbuf := next.cursor.symm
        simp only [freeLoop, if_pos atHead, List.drop_succ_cons, List.drop_nil,
          List.take_succ_cons, List.take_nil]
        exact ⟨next, first⟩
      | cons second rest =>
        have onward : ¬ netbufHdr = (freeOne ops netbufHdr world).pstNetbuf := by
          intro same
          have nodup := next.nodup
          rw [same, next.cursor] at nodup
          simp at nodup
        obtain ⟨last, others⟩ := ih next (fun _ => List.cons_ne_nil _ _)
        simp only [freeLoop, if_neg onward, List.drop_succ_cons, List.take_succ_cons]
        exact ⟨last, first.append others⟩

/-- Calls that were made stay on record. -/
theorem freeLoop_keeps (turns : Nat) (world : World Mem Node) (made : call ∈ world.calls) :
    call ∈ (freeLoop ops netbufHdr turns world).calls := by
  induction turns generalizing world with
  | zero => exact made
  | succ turns ih =>
    have kept : call ∈ (freeOne ops netbufHdr world).calls := by
      rw [freeOne_calls]
      exact List.mem_append_left _ made
    simp only [freeLoop]
    split
    · exact kept
    · exact ih _ kept

/-- With the cursor on the head the first turn takes the head for a node. -/
theorem freeLoop_unlinks_head (turns : Nat) (onHead : world.pstNetbuf = netbufHdr) :
    Call.delete netbufHdr ∈ (freeLoop ops netbufHdr (turns + 1) world).calls := by
  have unlinked : Call.delete netbufHdr ∈ (freeOne ops netbufHdr world).calls := by
    simp [freeOne_calls, callsFor, onHead]
  simp only [freeLoop]
  split
  · exact unlinked
  · exact freeLoop_keeps turns _ unlinked

/-! ## Sequences of calls -/

/-- Successive calls on one head and one cursor. -/
def freeEach (ops : NetbufOps Mem Node) (netbufHdr : Node) (counts : List UInt16)
    (world : World Mem Node) : World Mem Node :=
  counts.foldl (fun world nums => (hmacRxFreeNetbufList ops (some netbufHdr) true nums world).2) world

theorem freeEach_cons (nums : UInt16) (counts : List UInt16) (world : World Mem Node) :
    freeEach ops netbufHdr (nums :: counts) world =
      freeEach ops netbufHdr counts (freeLoop ops netbufHdr nums.toNat world) := rfl

/-- The nodes asked for, over all calls. -/
def total (counts : List UInt16) : Nat := (counts.map UInt16.toNat).sum

/-- Every call that asks for nodes is made while some of these many are left. -/
def Paced (remaining : Nat) (counts : List UInt16) : Prop :=
  ∀ earlier nums later, counts = earlier ++ nums :: later → 0 < nums → total earlier < remaining

@[simp] theorem total_cons (nums : UInt16) (counts : List UInt16) :
    total (nums :: counts) = nums.toNat + total counts := by
  simp [total]

theorem paced_cons (remaining : Nat) (nums : UInt16) (counts : List UInt16) :
    Paced remaining (nums :: counts) ↔
      (0 < nums → 0 < remaining) ∧ Paced (remaining - nums.toNat) counts := by
  constructor
  · intro paced
    constructor
    · exact paced [] nums counts rfl
    · intro earlier next later split positive
      have bound := paced (nums :: earlier) next later (by rw [split]; rfl) positive
      rw [total_cons] at bound
      omega
  · rintro ⟨first, others⟩ earlier next later split positive
    cases earlier with
    | nil =>
      simp only [List.nil_append, List.cons.injEq] at split
      exact first (split.1 ▸ positive)
    | cons other earlier =>
      simp only [List.cons_append, List.cons.injEq] at split
      obtain ⟨rfl, rest⟩ := split
      have bound := others earlier next later rest positive
      rw [total_cons]
      omega

private theorem toNat_pos {nums : UInt16} : 0 < nums ↔ 0 < nums.toNat := by
  rw [UInt16.lt_iff_toNat_lt]
  rfl

/-- Paced calls together do what one call for their total does. -/
theorem freeEach_at (documented : Documented ops circle allocated) (counts : List UInt16)
    (start : At circle netbufHdr front todo world) (paced : Paced todo.length counts) :
    At circle netbufHdr front (todo.drop (total counts)) (freeEach ops netbufHdr counts world) ∧
      Frees allocated (todo.take (total counts)) world (freeEach ops netbufHdr counts world) := by
  induction counts generalizing todo world with
  | nil => exact ⟨start, Frees.nothing world⟩
  | cons nums counts ih =>
    obtain ⟨first, others⟩ := (paced_cons _ _ _).mp paced
    have onNode : 0 < nums.toNat → todo ≠ [] := by
      intro positive
      exact List.ne_nil_of_length_pos (first (toNat_pos.mpr positive))
    obtain ⟨next, released⟩ := freeLoop_at documented nums.toNat start onNode
    obtain ⟨last, more⟩ := ih next (by simpa using others)
    rw [freeEach_cons, total_cons, List.take_add, ← List.drop_drop]
    exact ⟨last, released.append more⟩

theorem freeEach_keeps (counts : List UInt16) (world : World Mem Node) (made : call ∈ world.calls) :
    call ∈ (freeEach ops netbufHdr counts world).calls := by
  induction counts generalizing world with
  | nil => exact made
  | cons nums counts ih => exact ih _ (freeLoop_keeps nums.toNat world made)

/-- Calls that are not paced reach the head and unlink it. -/
theorem freeEach_unlinks_head (documented : Documented ops circle allocated) (counts : List UInt16)
    (start : At circle netbufHdr front todo world) (unpaced : ¬ Paced todo.length counts) :
    Call.delete netbufHdr ∈ (freeEach ops netbufHdr counts world).calls := by
  induction counts generalizing todo world with
  | nil =>
    exfalso
    apply unpaced
    intro earlier nums later split
    simp at split
  | cons nums counts ih =>
    by_cases first : 0 < nums.toNat → todo ≠ []
    · obtain ⟨next, -⟩ := freeLoop_at documented nums.toNat start first
      apply ih next
      intro others
      apply unpaced
      rw [paced_cons]
      refine ⟨?_, by simpa using others⟩
      intro positive
      exact List.length_pos_of_ne_nil (first (toNat_pos.mp positive))
    · simp only [Classical.not_imp, not_not] at first
      obtain ⟨positive, rfl⟩ := first
      obtain ⟨turns, count⟩ : ∃ turns, nums.toNat = turns + 1 := ⟨nums.toNat - 1, by omega⟩
      rw [freeEach_cons, count]
      apply freeEach_keeps
      exact freeLoop_unlinks_head turns start.cursor

/-- The calls leave what one call leaves, and the head is kept. -/
structure ComposesAs (circle : Mem → List Node) (allocated : Mem → Set Node) (netbufHdr : Node)
    (composed single : World Mem Node) : Prop where
  list : circle composed.mem = circle single.mem
  freed : ∀ node, .free node ∈ composed.calls ↔ .free node ∈ single.calls
  released : allocated composed.mem = allocated single.mem
  cursor : composed.pstNetbuf = single.pstNetbuf
  headLinked : .delete netbufHdr ∉ composed.calls
  headAllocated : .free netbufHdr ∉ composed.calls

omit [DecidableEq Node] in
theorem callsFor_spares {nodes : List Node} (absent : node ∉ nodes) :
    Call.delete node ∉ callsFor nodes ∧ Call.free node ∉ callsFor nodes := by
  simpa [callsFor, List.mem_flatMap] using absent

/-- On any circular list and from any node of it, a sequence of calls leaves
what one call for the total leaves, and spares the head, exactly where each call
that asks for nodes finds the cursor on a node: where the calls before it asked
for fewer nodes than there were from the cursor to the tail. -/
theorem free_composes_iff (documented : Documented ops circle allocated) (front rest : List Node)
    (cursor : Node) (world : World Mem Node)
    (list : circle world.mem = netbufHdr :: (front ++ cursor :: rest))
    (nodup : (netbufHdr :: (front ++ cursor :: rest)).Nodup)
    (points : world.pstNetbuf = cursor) (fresh : world.calls = [])
    (counts : List UInt16) (fits : total counts < 2 ^ 16) :
    ComposesAs circle allocated netbufHdr (freeEach ops netbufHdr counts world)
        (hmacRxFreeNetbufList ops (some netbufHdr) true (UInt16.ofNat (total counts)) world).2 ↔
      ∀ earlier nums later, counts = earlier ++ nums :: later → 0 < nums →
        total earlier < (cursor :: rest).length := by
  have start : At circle netbufHdr front (cursor :: rest) world := ⟨list, nodup, points⟩
  have whole : (UInt16.ofNat (total counts)).toNat = total counts :=
    UInt16.toNat_ofNat_of_lt' fits
  constructor
  · intro composes
    by_contra unpaced
    exact composes.headLinked (freeEach_unlinks_head documented counts start unpaced)
  · intro paced
    obtain ⟨composed, composedCalls, composedReleased⟩ := freeEach_at documented counts start paced
    obtain ⟨single, singleCalls, singleReleased⟩ :=
      freeLoop_at documented (total counts) start (fun _ => List.cons_ne_nil _ _)
    simp only [hmacRxFreeNetbufList, whole]
    rw [fresh, List.nil_append] at composedCalls singleCalls
    have headApart : netbufHdr ∉ (cursor :: rest).take (total counts) := by
      intro member
      exact (List.nodup_cons.mp nodup).1 (List.mem_append_right _ (List.mem_of_mem_take member))
    obtain ⟨linked, unfreed⟩ := callsFor_spares headApart
    refine ⟨composed.list.trans single.list.symm, ?_, composedReleased.trans singleReleased.symm,
      composed.cursor.trans single.cursor.symm, composedCalls ▸ linked, composedCalls ▸ unfreed⟩
    intro node
    rw [composedCalls, singleCalls]

/-! ## A memory of a list and its nodes -/

/-- A circular list and the nodes that are allocated. -/
structure Heap (Node : Type) where
  circle : List Node
  nodes : Finset Node

def Heap.inUse (heap : Heap Node) : Set Node := heap.nodes

/-- The netbuf functions on such a memory. -/
def bareList : NetbufOps (Heap Node) Node where
  oalGetNetbufNext mem netbuf :=
    if linked : netbuf ∈ mem.circle then mem.circle.next netbuf linked else netbuf
  oalNetbufDelete mem netbuf _ := { mem with circle := mem.circle.erase netbuf }
  oalNetbufFree mem netbuf :=
    (if netbuf ∈ mem.nodes then OAL_SUCC else OAL_ERR_CODE_OAL_MEM_ALREADY_FREE,
      { mem with nodes := mem.nodes.erase netbuf })

theorem documented_bareList :
    Documented (bareList : NetbufOps (Heap Node) Node) Heap.circle Heap.inUse where
  next _ _ linked := dif_pos linked
  delete _ _ _ _ _ := rfl
  delete_allocated _ _ _ := rfl
  free _ _ := rfl
  free_allocated mem netbuf := Finset.coe_erase netbuf mem.nodes

/-- One node and two calls for one node each: the second call releases the head. -/
theorem free_again_releases_head :
    ¬ ∀ (ops : NetbufOps (Heap Nat) Nat) (circle : Heap Nat → List Nat)
      (allocated : Heap Nat → Set Nat) (netbufHdr : Nat),
      Documented ops circle allocated →
      ∀ (front rest : List Nat) (cursor : Nat) (world : World (Heap Nat) Nat),
        circle world.mem = netbufHdr :: (front ++ cursor :: rest) →
        (netbufHdr :: (front ++ cursor :: rest)).Nodup →
        world.pstNetbuf = cursor → world.calls = [] →
        ∀ counts, total counts < 2 ^ 16 →
          ComposesAs circle allocated netbufHdr (freeEach ops netbufHdr counts world)
            (hmacRxFreeNetbufList ops (some netbufHdr) true (UInt16.ofNat (total counts)) world).2 := by
  intro composes
  let world : World (Heap Nat) Nat := ⟨⟨[0, 1], {0, 1}⟩, 1, []⟩
  have kept := (composes bareList Heap.circle Heap.inUse 0 documented_bareList [] [] 1 world rfl
    (by simp) rfl rfl [1, 1] (by decide)).headLinked
  have calls : (freeEach bareList 0 [1, 1] world).calls =
      [.next 1, .delete 1, .free 1, .next 0, .delete 0, .free 0] := rfl
  rw [calls] at kept
  simp at kept

/-- From the second of four nodes, one node and then two more: the tail is
reached by the last call that asks for any. -/
theorem free_composes_iff_to_tail :
    let world : World (Heap Nat) Nat := ⟨⟨[9, 4, 6, 2, 7], {9, 4, 6, 2, 7}⟩, 6, []⟩
    ComposesAs Heap.circle Heap.inUse 9 (freeEach bareList 9 [1, 2, 0] world)
        (hmacRxFreeNetbufList bareList (some 9) true (UInt16.ofNat (total [1, 2, 0])) world).2 ↔
      ∀ earlier nums later, [1, 2, 0] = earlier ++ nums :: later → 0 < nums →
        total earlier < ([6, 2, 7] : List Nat).length :=
  free_composes_iff documented_bareList [4] [2, 7] 6 ⟨⟨[9, 4, 6, 2, 7], {9, 4, 6, 2, 7}⟩, 6, []⟩ rfl
    (by simp) rfl rfl [1, 2, 0] (by decide)

/-! ## What one call releases -/

omit [DecidableEq Node] in
theorem free_mem_callsFor {nodes : List Node} : .free node ∈ callsFor nodes ↔ node ∈ nodes := by
  simp [callsFor, List.mem_flatMap]

theorem count_free_callsFor (nodes : List Node) :
    (callsFor nodes).count (.free node) = nodes.count node := by
  induction nodes with
  | nil => rfl
  | cons first nodes ih =>
    change (Call.next first :: .delete first :: .free first :: callsFor nodes).count _ = _
    by_cases same : first = node
    · subst same
      simp [ih]
    · rw [List.count_cons_of_ne (by simp), List.count_cons_of_ne (by simp),
        List.count_cons_of_ne (by simpa using same), List.count_cons_of_ne same, ih]

omit [DecidableEq Node] in
/-- What surrounds the release of a node: what was done for the nodes before it
and its own two calls, then what is done for the nodes behind it. -/
theorem around_free (nodes : List Node) {earlier later : List (Call Node)}
    (split : callsFor nodes = earlier ++ .free node :: later) : ∃ front rest,
      nodes = front ++ node :: rest ∧ earlier = callsFor front ++ [.next node, .delete node] ∧
      later = callsFor rest := by
  induction nodes generalizing earlier with
  | nil => simp [callsFor] at split
  | cons first nodes ih =>
    change Call.next first :: .delete first :: .free first :: callsFor nodes = _ at split
    match earlier with
    | [] => simp at split
    | [_] => simp at split
    | [_, _] =>
      simp only [List.cons_append, List.nil_append, List.cons.injEq, Call.free.injEq] at split
      obtain ⟨rfl, rfl, rfl, rfl⟩ := split
      exact ⟨[], nodes, rfl, rfl, rfl⟩
    | _ :: _ :: _ :: earlier =>
      simp only [List.cons_append, List.cons.injEq] at split
      obtain ⟨rfl, rfl, rfl, behind⟩ := split
      obtain ⟨front, rest, rfl, rfl, rfl⟩ := ih behind
      exact ⟨first :: front, rest, rfl, rfl, rfl⟩

/-- The calls release this node once; its successor was read and it was unlinked
by then, and nothing is done to it afterwards. -/
structure FreedOnce (node : Node) (calls : List (Call Node)) : Prop where
  once : calls.count (.free node) = 1
  behind : ∀ earlier later, calls = earlier ++ .free node :: later →
    .next node ∈ earlier ∧ .delete node ∈ earlier
  untouched : ∀ earlier later, calls = earlier ++ .free node :: later →
    .next node ∉ later ∧ .delete node ∉ later

theorem freedOnce_callsFor {nodes : List Node} (nodup : nodes.Nodup) (member : node ∈ nodes) :
    FreedOnce node (callsFor nodes) := by
  constructor
  · rw [count_free_callsFor, List.count_eq_one_of_mem nodup member]
  · intro earlier later split
    obtain ⟨front, rest, -, rfl, -⟩ := around_free nodes split
    simp
  · intro earlier later split
    obtain ⟨front, rest, rfl, -, rfl⟩ := around_free nodes split
    have gone : node ∉ rest := (List.nodup_cons.mp (List.nodup_append.mp nodup).2.1).1
    simpa [callsFor, List.mem_flatMap] using gone

/-- What a call has done that took these nodes off the list and left those
behind the cursor's start. -/
structure Released (circle : Mem → List Node) (allocated : Mem → Set Node) (netbufHdr : Node)
    (front removed kept : List Node) (before after : World Mem Node) : Prop where
  list : circle after.mem = netbufHdr :: (front ++ kept)
  freed : ∀ node ∈ removed, FreedOnce node after.calls
  unfreed : ∀ node, node ∉ removed → .free node ∉ after.calls
  released : allocated after.mem = allocated before.mem \ {node | node ∈ removed}
  cursor : after.pstNetbuf = kept.headD netbufHdr
  behindLast : ∀ last (linked : last ∈ circle before.mem), removed.getLast? = some last →
    after.pstNetbuf = (circle before.mem).next last linked
  unmoved : removed = [] → after.pstNetbuf = before.pstNetbuf

/-- A run that went from the one state to the other and released these nodes. -/
theorem released_of_frees {world after : World Mem Node} (fresh : world.calls = [])
    (start : At circle netbufHdr front (removed ++ kept) world)
    (finish : At circle netbufHdr front kept after) (frees : Frees allocated removed world after) :
    Released circle allocated netbufHdr front removed kept world after := by
  obtain ⟨list, nodup, points⟩ := start
  obtain ⟨calls, released⟩ := frees
  rw [fresh, List.nil_append] at calls
  have apart : removed.Nodup :=
    (List.nodup_append.mp (List.nodup_append.mp (List.nodup_cons.mp nodup).2).2.1).1
  refine ⟨finish.list, ?_, ?_, released, finish.cursor, ?_, ?_⟩
  · intro node member
    rw [calls]
    exact freedOnce_callsFor apart member
  · intro node absent
    rw [calls, free_mem_callsFor]
    exact absent
  · intro last linked ended
    rw [finish.cursor]
    simp only [list]
    exact (next_last nodup ended _).symm
  · rintro rfl
    rw [finish.cursor, points]
    rfl

theorem free_refuses_null (nums : UInt16) (hdr : Option Node) (given : Bool)
    (before : World Mem Node) (null : hdr = none ∨ given = false) :
    hmacRxFreeNetbufList ops hdr given nums before = (OAL_ERR_CODE_PTR_NULL, before) := by
  rcases null with rfl | rfl
  · rfl
  · cases hdr <;> rfl

/-- From any node of any circular list, a call takes off as many nodes as it is
asked to, or all there are up to the tail, and leaves the cursor behind them. A
null pointer is refused in any memory and nothing is done. -/
theorem free_releases_requested_run (documented : Documented ops circle allocated) (front rest : List Node)
    (cursor : Node) (world : World Mem Node)
    (list : circle world.mem = netbufHdr :: (front ++ cursor :: rest))
    (nodup : (netbufHdr :: (front ++ cursor :: rest)).Nodup)
    (points : world.pstNetbuf = cursor) (fresh : world.calls = []) (nums : UInt16) :
    (∃ removed kept after, cursor :: rest = removed ++ kept ∧
      removed.length = min nums.toNat (cursor :: rest).length ∧
      hmacRxFreeNetbufList ops (some netbufHdr) true nums world = (OAL_SUCC, after) ∧
      Released circle allocated netbufHdr front removed kept world after) ∧
    ∀ hdr given (before : World Mem Node), hdr = none ∨ given = false →
      hmacRxFreeNetbufList ops hdr given nums before = (OAL_ERR_CODE_PTR_NULL, before) := by
  refine ⟨?_, free_refuses_null nums⟩
  have start : At circle netbufHdr front (cursor :: rest) world := ⟨list, nodup, points⟩
  obtain ⟨finish, frees⟩ :=
    freeLoop_at documented nums.toNat start (fun _ => List.cons_ne_nil _ _)
  have split : cursor :: rest = (cursor :: rest).take nums.toNat ++ (cursor :: rest).drop nums.toNat :=
    (List.take_append_drop _ _).symm
  rw [split] at start
  exact ⟨_, _, _, split, List.length_take, rfl, released_of_frees fresh start finish frees⟩

/-- Five nodes asked for where three are left: the tail goes and the head stays. -/
theorem free_releases_requested_run_to_tail :
    let world : World (Heap Nat) Nat := ⟨⟨[9, 4, 6, 2, 7], {9, 4, 6, 2, 7}⟩, 6, []⟩
    (∃ removed kept after, [6, 2, 7] = removed ++ kept ∧
      removed.length = min (5 : UInt16).toNat ([6, 2, 7] : List Nat).length ∧
      hmacRxFreeNetbufList bareList (some 9) true 5 world = (OAL_SUCC, after) ∧
      Released Heap.circle Heap.inUse 9 [4] removed kept world after) ∧
    ∀ hdr given (before : World (Heap Nat) Nat), hdr = none ∨ given = false →
      hmacRxFreeNetbufList bareList hdr given 5 before = (OAL_ERR_CODE_PTR_NULL, before) :=
  free_releases_requested_run documented_bareList [4] [2, 7] 6
    ⟨⟨[9, 4, 6, 2, 7], {9, 4, 6, 2, 7}⟩, 6, []⟩ rfl (by simp) rfl rfl 5

end Ws63Rf.NetbufListProofs
