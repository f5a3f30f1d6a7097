import Mathlib.Data.List.Cycle
import Mathlib.Data.Set.Basic

/-! `hmac_rx_free_netbuf_list` of `dmac_ext_if_hcm.h`. The netbuf functions it
calls are not part of the repository: they are parameters, bound to successor,
unlinking and release on a circular list. Every call of one goes on record. -/
namespace Ws63Rf.NetbufList

def OAL_SUCC : UInt32 := 0

def OAL_ERR_CODE_PTR_NULL : UInt32 := 100

def OAL_ERR_CODE_OAL_MEM_ALREADY_FREE : UInt32 := 24007

variable {Mem Node : Type}

/-- The netbuf functions over some memory; nodes are addresses, of netbufs and
of list heads alike. -/
structure NetbufOps (Mem Node : Type) where
  oalGetNetbufNext : Mem → Node → Node
  oalNetbufDelete : Mem → (netbuf netbufHdr : Node) → Mem
  oalNetbufFree : Mem → Node → UInt32 × Mem

inductive Call (Node : Type) where
  | next (netbuf : Node)
  | delete (netbuf : Node)
  | free (netbuf : Node)
  deriving DecidableEq

/-- The memory, the content of the caller's cursor, and the calls so far. -/
structure World (Mem Node : Type) where
  mem : Mem
  pstNetbuf : Node
  calls : List (Call Node)

section Code
variable [DecidableEq Node] (ops : NetbufOps Mem Node)

/-! ## The netbuf functions as they are called

A call acts on the memory and is put on record. -/

def callNext (netbuf : Node) (world : World Mem Node) : Node × World Mem Node :=
  (ops.oalGetNetbufNext world.mem netbuf, { world with calls := world.calls ++ [.next netbuf] })

def callDelete (netbuf netbufHdr : Node) (world : World Mem Node) : World Mem Node :=
  { world with
    mem := ops.oalNetbufDelete world.mem netbuf netbufHdr
    calls := world.calls ++ [.delete netbuf] }

def callFree (netbuf : Node) (world : World Mem Node) : UInt32 × World Mem Node :=
  let (code, mem) := ops.oalNetbufFree world.mem netbuf
  (code, { world with mem := mem, calls := world.calls ++ [.free netbuf] })

/-! ## `hmac_rx_free_netbuf_list` -/

/-- The body of the `for` loop up to its end-of-list test. The branch for a node
that was free already is empty. -/
def freeOne (netbufHdr : Node) (world : World Mem Node) : World Mem Node :=
  let (netbufTemp, world) := callNext ops world.pstNetbuf world
  let world := callDelete ops world.pstNetbuf netbufHdr world
  let (_, world) := callFree ops world.pstNetbuf world
  { world with pstNetbuf := netbufTemp }

/-- The `for` loop with this many turns left. -/
def freeLoop (netbufHdr : Node) : Nat → World Mem Node → World Mem Node
  | 0, world => world
  | turns + 1, world =>
    let world := freeOne ops netbufHdr world
    if netbufHdr = world.pstNetbuf then world else freeLoop netbufHdr turns world

/-- Either pointer may be null; `pst_netbuf` is given by whether it is there,
its content is the cursor of the world. -/
def hmacRxFreeNetbufList (netbufHdr : Option Node) (pstNetbufGiven : Bool) (nums : UInt16)
    (world : World Mem Node) : UInt32 × World Mem Node :=
  match netbufHdr, pstNetbufGiven with
  | some netbufHdr, true => (OAL_SUCC, freeLoop ops netbufHdr nums.toNat world)
  | _, _ => (OAL_ERR_CODE_PTR_NULL, world)

/-- What the functions do to the list with this head, read off the memory as
one turn of the circle, and to what is allocated: a release takes exactly the
given node out of that. -/
structure Documented (circle : Mem → List Node) (allocated : Mem → Set Node) : Prop where
  next : ∀ mem netbuf (linked : netbuf ∈ circle mem),
    ops.oalGetNetbufNext mem netbuf = (circle mem).next netbuf linked
  delete : ∀ mem netbuf netbufHdr, netbuf ∈ circle mem → (circle mem).head? = some netbufHdr →
    circle (ops.oalNetbufDelete mem netbuf netbufHdr) = (circle mem).erase netbuf
  delete_allocated : ∀ mem netbuf netbufHdr,
    allocated (ops.oalNetbufDelete mem netbuf netbufHdr) = allocated mem
  free : ∀ mem netbuf, circle (ops.oalNetbufFree mem netbuf).2 = circle mem
  free_allocated : ∀ mem netbuf,
    allocated (ops.oalNetbufFree mem netbuf).2 = allocated mem \ {netbuf}

end Code

end Ws63Rf.NetbufList
