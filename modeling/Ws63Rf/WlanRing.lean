import Mathlib.Data.BitVec

/-! The index words of `wlan_ring.h`. `oal_ring_write` and `oal_ring_read` have
no body in the repository: they are parameters, bound to what the headers
document of them. -/
namespace Ws63Rf.WlanRing

/-- `bits` of the union, lowest bits first. -/
structure OalRingIndexCtrl where
  index : BitVec 7
  wrapFlag : BitVec 1
  resv : BitVec 24
  deriving DecidableEq

/-- The union's other view. -/
def OalRingIndexCtrl.u32 (ctrl : OalRingIndexCtrl) : BitVec 32 :=
  ctrl.resv ++ ctrl.wrapFlag ++ ctrl.index

def oalRingIsFull (readCtrl writeCtrl : OalRingIndexCtrl) : Bool :=
  readCtrl.index == writeCtrl.index && readCtrl.wrapFlag != writeCtrl.wrapFlag

def oalRingIsEmpty (readCtrl writeCtrl : OalRingIndexCtrl) : Bool :=
  readCtrl.u32 == writeCtrl.u32

def oalRingWrapAround (readCtrl writeCtrl : OalRingIndexCtrl) : Bool :=
  readCtrl.wrapFlag != writeCtrl.wrapFlag

private theorem append_fields {m n : Nat} {high high' : BitVec m} {low low' : BitVec n}
    (same : high ++ low = high' ++ low') : high = high' ∧ low = low' := by
  have upper := congrArg (BitVec.extractLsb' n m) same
  have lower := congrArg (BitVec.extractLsb' 0 n) same
  simp only [BitVec.extractLsb'_append_eq_left, BitVec.extractLsb'_append_eq_right] at upper lower
  exact ⟨upper, lower⟩

/-- The word determines its bit fields. -/
theorem u32_inj {first second : OalRingIndexCtrl} : first.u32 = second.u32 ↔ first = second := by
  constructor
  · intro same
    obtain ⟨index, wrapFlag, resv⟩ := first
    obtain ⟨index', wrapFlag', resv'⟩ := second
    obtain ⟨high, rfl⟩ := append_fields same
    obtain ⟨rfl, rfl⟩ := append_fields high
    rfl
  · intro same
    exact congrArg OalRingIndexCtrl.u32 same

/-! ## The operations -/

section Operations
variable {Ring Element : Type}

/-- A ring with the words its two index addresses point at. -/
structure RingOps (Ring Element : Type) where
  readCtrl : Ring → OalRingIndexCtrl
  writeCtrl : Ring → OalRingIndexCtrl
  oalRingWrite : Ring → Element → Int32 × Ring
  oalRingRead : Ring → Element → Int32 × Element × Ring

/-- A successful step of one side: its index moves on by one, or goes back to 0
with the flag toggled on reaching the depth. -/
structure Advanced (depth : Nat) (before after : OalRingIndexCtrl) : Prop where
  index : after.index = if before.index.toNat + 1 = depth then 0 else before.index + 1
  wrapFlag : after.wrapFlag =
    if before.index.toNat + 1 = depth then ~~~before.wrapFlag else before.wrapFlag
  resv : after.resv = before.resv

/-- What the headers document: 0 on success, -1 where the ring is full to a
write or empty to a read. -/
structure Documented (depth : Nat) (ops : RingOps Ring Element) : Prop where
  write_refused : ∀ ring element, oalRingIsFull (ops.readCtrl ring) (ops.writeCtrl ring) = true →
    let (code, after) := ops.oalRingWrite ring element
    code = -1 ∧ ops.readCtrl after = ops.readCtrl ring ∧ ops.writeCtrl after = ops.writeCtrl ring
  write_done : ∀ ring element, oalRingIsFull (ops.readCtrl ring) (ops.writeCtrl ring) = false →
    let (code, after) := ops.oalRingWrite ring element
    code = 0 ∧ ops.readCtrl after = ops.readCtrl ring ∧
      Advanced depth (ops.writeCtrl ring) (ops.writeCtrl after)
  read_refused : ∀ ring element, oalRingIsEmpty (ops.readCtrl ring) (ops.writeCtrl ring) = true →
    let (code, _, after) := ops.oalRingRead ring element
    code = -1 ∧ ops.readCtrl after = ops.readCtrl ring ∧ ops.writeCtrl after = ops.writeCtrl ring
  read_done : ∀ ring element, oalRingIsEmpty (ops.readCtrl ring) (ops.writeCtrl ring) = false →
    let (code, _, after) := ops.oalRingRead ring element
    code = 0 ∧ Advanced depth (ops.readCtrl ring) (ops.readCtrl after) ∧
      ops.writeCtrl after = ops.writeCtrl ring

/-! ## Runs -/

inductive Action (Element : Type) where
  | write (element : Element)
  | read (element : Element)

/-- The ring after some actions, with the numbers of those that succeeded. -/
structure Progress (Ring : Type) where
  ring : Ring
  writes : Nat
  reads : Nat

def RingOps.step (ops : RingOps Ring Element) (progress : Progress Ring) :
    Action Element → Progress Ring
  | .write element =>
    let (code, ring) := ops.oalRingWrite progress.ring element
    ⟨ring, if code = 0 then progress.writes + 1 else progress.writes, progress.reads⟩
  | .read element =>
    let (code, _, ring) := ops.oalRingRead progress.ring element
    ⟨ring, progress.writes, if code = 0 then progress.reads + 1 else progress.reads⟩

def RingOps.run (ops : RingOps Ring Element) (ring : Ring) (actions : List (Action Element)) :
    Progress Ring :=
  actions.foldl ops.step ⟨ring, 0, 0⟩

end Operations

end Ws63Rf.WlanRing
