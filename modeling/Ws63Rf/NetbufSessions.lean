import Ws63Rf.NetbufListProofs

/-! Many holders of cursors into one netbuf list. Each calls
`hmac_rx_free_netbuf_list` from wherever its cursor is, in any order. The
account of the list, every node linked or released once, balances exactly
where each call that asks for nodes is made from a node still linked. -/
namespace Ws63Rf.NetbufSessions
open NetbufList NetbufListProofs

variable {Mem Node : Type} [DecidableEq Node] {ops : NetbufOps Mem Node}
  {circle : Mem → List Node} {allocated : Mem → Set Node} {netbufHdr : Node} {nodes : List Node}
  {start : World Mem Node}

/-! ## Sessions -/

/-- A call: where its cursor is, and how many nodes it asks for. -/
structure Request (Node : Type) where
  cursor : Node
  nums : UInt16

def serve (ops : NetbufOps Mem Node) (netbufHdr : Node) (world : World Mem Node)
    (request : Request Node) : World Mem Node :=
  (hmacRxFreeNetbufList ops (some netbufHdr) true request.nums
    { world with pstNetbuf := request.cursor }).2

def session (ops : NetbufOps Mem Node) (netbufHdr : Node) (requests : List (Request Node))
    (world : World Mem Node) : World Mem Node :=
  requests.foldl (serve ops netbufHdr) world

/-- A call that asks for nodes is made from a node of the list. -/
def FromNode (circle : Mem → List Node) (netbufHdr : Node) (request : Request Node)
    (world : World Mem Node) : Prop :=
  0 < request.nums → request.cursor ≠ netbufHdr ∧ request.cursor ∈ circle world.mem

/-- Every call of the session is. -/
def Sound (ops : NetbufOps Mem Node) (circle : Mem → List Node) (netbufHdr : Node)
    (requests : List (Request Node)) (world : World Mem Node) : Prop :=
  ∀ earlier request later, requests = earlier ++ request :: later →
    FromNode circle netbufHdr request (session ops netbufHdr earlier world)

theorem sound_cons (request : Request Node) (requests : List (Request Node)) (world : World Mem Node) :
    Sound ops circle netbufHdr (request :: requests) world ↔
      FromNode circle netbufHdr request world ∧
        Sound ops circle netbufHdr requests (serve ops netbufHdr world request) := by
  constructor
  · intro sound
    constructor
    · exact sound [] request requests rfl
    · intro earlier next later split
      exact sound (request :: earlier) next later (by rw [split]; rfl)
  · rintro ⟨first, others⟩ earlier next later split
    cases earlier with
    | nil =>
      obtain ⟨rfl, -⟩ := List.cons.inj split
      exact first
    | cons other earlier =>
      obtain ⟨rfl, rest⟩ := List.cons.inj split
      exact others earlier next later rest

/-! ## The account -/

/-- The nodes still linked, in their order, and those released since the start,
in the order of their release, are the nodes there were. -/
structure Account (circle : Mem → List Node) (allocated : Mem → Set Node) (netbufHdr : Node)
    (nodes kept freed : List Node) (start world : World Mem Node) : Prop where
  list : circle world.mem = netbufHdr :: kept
  frees : Frees allocated freed start world
  order : kept.Sublist nodes
  balance : (freed ++ kept).Perm nodes

omit [DecidableEq Node] in
theorem moved_across (freed front todo : List Node) (n : Nat) :
    ((freed ++ todo.take n) ++ (front ++ todo.drop n)).Perm (freed ++ (front ++ todo)) := by
  have swapped : (todo.take n ++ front).Perm (front ++ todo.take n) := List.perm_append_comm
  have whole : front ++ todo = (front ++ todo.take n) ++ todo.drop n := by
    rw [List.append_assoc, List.take_append_drop]
  rw [whole, List.append_assoc, ← List.append_assoc (todo.take n)]
  exact (swapped.append_right _).append_left freed

/-- A call from a linked node moves nodes from one side of the account to the
other. -/
theorem Account.step (documented : Documented ops circle allocated)
    (nodup : (netbufHdr :: nodes).Nodup)
    (account : Account circle allocated netbufHdr nodes kept freed start world)
    {request : Request Node} (fromNode : FromNode circle netbufHdr request world) :
    ∃ kept' freed', Account circle allocated netbufHdr nodes kept' freed' start
      (serve ops netbufHdr world request) := by
  obtain ⟨list, frees, order, balance⟩ := account
  by_cases asks : 0 < request.nums
  · obtain ⟨apart, linked⟩ := fromNode asks
    rw [list] at linked
    obtain ⟨front, rest, rfl⟩ := List.append_of_mem (List.mem_of_ne_of_mem apart linked)
    have onCursor : At circle netbufHdr front (request.cursor :: rest)
        { world with pstNetbuf := request.cursor } :=
      ⟨list, nodup.sublist (order.cons_cons netbufHdr), rfl⟩
    obtain ⟨finish, more⟩ :=
      freeLoop_at documented request.nums.toNat onCursor fun _ => List.cons_ne_nil _ _
    generalize request.cursor :: rest = todo at order balance finish more
    refine ⟨front ++ todo.drop request.nums.toNat, freed ++ todo.take request.nums.toNat,
      finish.list, ?_, ?_, ?_⟩
    · have before : Frees allocated freed start { world with pstNetbuf := request.cursor } :=
        ⟨frees.calls, frees.released⟩
      exact before.append more
    · exact ((List.drop_sublist _ _).append_left front).trans order
    · exact (moved_across freed front todo request.nums.toNat).trans balance
  · have nothing : request.nums.toNat = 0 := by
      rw [UInt16.lt_iff_toNat_lt] at asks
      exact Nat.eq_zero_of_not_pos asks
    have same : serve ops netbufHdr world request = { world with pstNetbuf := request.cursor } := by
      rw [serve, hmacRxFreeNetbufList, nothing, freeLoop]
    rw [same]
    exact ⟨kept, freed, list, ⟨frees.calls, frees.released⟩, order, balance⟩

theorem Account.run (documented : Documented ops circle allocated)
    (nodup : (netbufHdr :: nodes).Nodup) (requests : List (Request Node))
    (account : Account circle allocated netbufHdr nodes kept freed start world)
    (sound : Sound ops circle netbufHdr requests world) : ∃ kept' freed',
    Account circle allocated netbufHdr nodes kept' freed' start
      (session ops netbufHdr requests world) := by
  induction requests generalizing kept freed world with
  | nil => exact ⟨kept, freed, account⟩
  | cons request requests ih =>
    obtain ⟨first, others⟩ := (sound_cons request requests world).mp sound
    obtain ⟨_, _, next⟩ := account.step documented nodup first
    exact ih next others

/-! ## Conservation -/

/-- What is left of the list is in its old order, a node is either linked and
not freed or was freed once, its successor having been read, and nothing else
was unlinked or freed. What left the list is what is no longer allocated. -/
structure Conserved (circle : Mem → List Node) (allocated : Mem → Set Node) (netbufHdr : Node)
    (nodes : List Node) (start world : World Mem Node) : Prop where
  list : ∃ kept, circle world.mem = netbufHdr :: kept ∧ kept.Sublist nodes
  linked : ∀ node ∈ nodes, node ∈ circle world.mem → .free node ∉ world.calls
  released : ∀ node ∈ nodes, node ∉ circle world.mem → FreedOnce node world.calls
  spared : ∀ node, node ∉ nodes → .delete node ∉ world.calls ∧ .free node ∉ world.calls
  allocated : allocated world.mem =
    allocated start.mem \ {node | node ∈ nodes ∧ node ∉ circle world.mem}

omit [DecidableEq Node] in
/-- The nodes released are those that are not linked any more. -/
theorem Account.freed_iff (nodup : (netbufHdr :: nodes).Nodup)
    (account : Account circle allocated netbufHdr nodes kept freed start world) (node : Node) :
    node ∈ freed ↔ node ∈ nodes ∧ node ∉ circle world.mem := by
  obtain ⟨noHead, distinct⟩ := List.nodup_cons.mp nodup
  have apart : (freed ++ kept).Nodup := account.balance.nodup_iff.mpr distinct
  obtain ⟨-, -, disjoint⟩ := List.nodup_append.mp apart
  rw [account.list]
  constructor
  · intro released
    have inside := account.balance.subset (List.mem_append_left kept released)
    refine ⟨inside, fun onList => ?_⟩
    have other : node ≠ netbufHdr := fun same => noHead (same ▸ inside)
    exact disjoint node released node (List.mem_of_ne_of_mem other onList) rfl
  · rintro ⟨inside, offList⟩
    have either := List.mem_append.mp (account.balance.mem_iff.mpr inside)
    exact either.resolve_right fun onList => offList (List.mem_cons_of_mem _ onList)

theorem Account.conserved (nodup : (netbufHdr :: nodes).Nodup) (fresh : start.calls = [])
    (account : Account circle allocated netbufHdr nodes kept freed start world) :
    Conserved circle allocated netbufHdr nodes start world := by
  have freed_iff := account.freed_iff nodup
  obtain ⟨list, ⟨calls, allocation⟩, order, balance⟩ := account
  rw [fresh, List.nil_append] at calls
  have apart : (freed ++ kept).Nodup := balance.nodup_iff.mpr (List.nodup_cons.mp nodup).2
  refine ⟨⟨kept, list, order⟩, ?_, ?_, ?_, ?_⟩
  · intro node inside onList released
    rw [calls, free_mem_callsFor] at released
    exact ((freed_iff node).mp released).2 onList
  · intro node inside offList
    rw [calls]
    exact freedOnce_callsFor (List.nodup_append.mp apart).1 ((freed_iff node).mpr ⟨inside, offList⟩)
  · intro node outside
    rw [calls]
    exact callsFor_spares fun member => outside (balance.subset (List.mem_append_left _ member))
  · simp only [allocation, freed_iff]

/-! ## Calls from elsewhere -/

/-- A run only adds to the calls made. -/
theorem freeLoop_extends (turns : Nat) (world : World Mem Node) :
    world.calls <+: (freeLoop ops netbufHdr turns world).calls := by
  induction turns generalizing world with
  | zero => exact List.prefix_rfl
  | succ turns ih =>
    have first : world.calls <+: (freeOne ops netbufHdr world).calls := by
      rw [freeOne_calls]
      exact List.prefix_append _ _
    simp only [freeLoop]
    split
    · exact first
    · exact first.trans (ih _)

theorem session_extends (requests : List (Request Node)) (world : World Mem Node) :
    world.calls <+: (session ops netbufHdr requests world).calls := by
  induction requests generalizing world with
  | nil => exact List.prefix_rfl
  | cons request requests ih =>
    have first : world.calls <+: (serve ops netbufHdr world request).calls :=
      freeLoop_extends request.nums.toNat { world with pstNetbuf := request.cursor }
    exact first.trans (ih _)

/-- A call that asks for nodes frees what its cursor is on, whatever that is. -/
theorem serve_frees_cursor (request : Request Node) (asks : 0 < request.nums) (world : World Mem Node) :
    world.calls ++ callsFor [request.cursor] <+: (serve ops netbufHdr world request).calls := by
  have positive : 0 < request.nums.toNat := UInt16.lt_iff_toNat_lt.mp asks
  obtain ⟨turns, count⟩ := Nat.exists_eq_succ_of_ne_zero positive.ne'
  let first := freeOne ops netbufHdr { world with pstNetbuf := request.cursor }
  have freed : first.calls = world.calls ++ callsFor [request.cursor] := freeOne_calls _
  rw [serve, hmacRxFreeNetbufList, count, freeLoop, ← freed]
  dsimp only
  split
  · exact List.prefix_rfl
  · exact freeLoop_extends turns first

/-- What a call from elsewhere frees is no node of the list or was freed before. -/
theorem Account.lost (account : Account circle allocated netbufHdr nodes kept freed start world)
    (noHead : netbufHdr ∉ nodes) {request : Request Node}
    (elsewhere : ¬ FromNode circle netbufHdr request world)
    (further : (serve ops netbufHdr world request).calls <+: after.calls) :
    ¬ Conserved circle allocated netbufHdr nodes start after := by
  intro conserved
  obtain ⟨asks, outside⟩ := Classical.not_imp.mp elsewhere
  have made : world.calls ++ callsFor [request.cursor] <+: after.calls :=
    (serve_frees_cursor request asks world).trans further
  have again : world.calls.count (.free request.cursor) + 1 ≤ after.calls.count (.free request.cursor) := by
    have grown := made.sublist.count_le (.free request.cursor)
    rwa [List.count_append, count_free_callsFor, List.count_singleton_self] at grown
  have freedAgain : .free request.cursor ∈ after.calls := List.count_pos_iff.mp (by omega)
  by_cases inside : request.cursor ∈ nodes
  · have apart : request.cursor ≠ netbufHdr := fun same => noHead (same ▸ inside)
    have unlinked : request.cursor ∉ kept := fun member =>
      outside ⟨apart, account.list ▸ List.mem_cons_of_mem _ member⟩
    have before : request.cursor ∈ freed :=
      (List.mem_append.mp (account.balance.mem_iff.mpr inside)).resolve_right unlinked
    by_cases linked : request.cursor ∈ circle after.mem
    · exact conserved.linked _ inside linked freedAgain
    · have once := (conserved.released _ inside linked).once
      have first : .free request.cursor ∈ world.calls := by
        rw [account.frees.calls]
        exact List.mem_append_right _ (free_mem_callsFor.mpr before)
      have counted := List.count_pos_iff.mpr first
      omega
  · exact (conserved.spared _ inside).2 freedAgain

/-- A call from elsewhere is not made good by what follows it. -/
theorem Account.sound_of_conserved (documented : Documented ops circle allocated)
    (nodup : (netbufHdr :: nodes).Nodup) (requests : List (Request Node))
    (account : Account circle allocated netbufHdr nodes kept freed start world)
    (conserved : Conserved circle allocated netbufHdr nodes start
      (session ops netbufHdr requests world)) :
    Sound ops circle netbufHdr requests world := by
  induction requests generalizing kept freed world with
  | nil =>
    intro earlier request later split
    simp at split
  | cons request requests ih =>
    have first : FromNode circle netbufHdr request world := by
      by_contra elsewhere
      have further : (serve ops netbufHdr world request).calls <+:
          (session ops netbufHdr (request :: requests) world).calls := session_extends requests _
      exact account.lost (List.nodup_cons.mp nodup).1 elsewhere further conserved
    obtain ⟨_, _, next⟩ := account.step documented nodup first
    exact (sound_cons request requests world).mpr ⟨first, ih next conserved⟩

/-- However the holders of cursors take turns, the account balances at the end
exactly where every call that asked for nodes was made from a node linked by
then: not from the head, nor from a node that this or another call released. -/
theorem session_conserves_iff (documented : Documented ops circle allocated) (nodes : List Node)
    (world : World Mem Node) (list : circle world.mem = netbufHdr :: nodes)
    (nodup : (netbufHdr :: nodes).Nodup) (fresh : world.calls = [])
    (requests : List (Request Node)) :
    Conserved circle allocated netbufHdr nodes world (session ops netbufHdr requests world) ↔
      Sound ops circle netbufHdr requests world := by
  have opened : Account circle allocated netbufHdr nodes nodes [] world world :=
    ⟨list, Frees.nothing world, List.Sublist.refl nodes, List.Perm.refl nodes⟩
  constructor
  · exact opened.sound_of_conserved documented nodup requests
  · intro sound
    obtain ⟨_, _, closed⟩ := opened.run documented nodup requests sound
    exact closed.conserved nodup fresh

/-- Three holders of cursors into one list; the one nearest to the tail asks for
more nodes than there are. -/
theorem session_conserves_iff_in_turn :
    let world : World (Heap Nat) Nat := ⟨⟨[9, 4, 6, 2, 7], {9, 4, 6, 2, 7}⟩, 9, []⟩
    Conserved Heap.circle Heap.inUse 9 [4, 6, 2, 7] world
        (session bareList 9 [⟨6, 1⟩, ⟨4, 1⟩, ⟨2, 5⟩] world) ↔
      Sound bareList Heap.circle 9 [⟨6, 1⟩, ⟨4, 1⟩, ⟨2, 5⟩] world :=
  session_conserves_iff documented_bareList [4, 6, 2, 7]
    ⟨⟨[9, 4, 6, 2, 7], {9, 4, 6, 2, 7}⟩, 9, []⟩ rfl (by simp) rfl [⟨6, 1⟩, ⟨4, 1⟩, ⟨2, 5⟩]

end Ws63Rf.NetbufSessions
