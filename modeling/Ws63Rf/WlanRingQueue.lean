import Ws63Rf.BoundedQueue
import Ws63Rf.WlanRingProofs

/-! The ring of `wlan_ring.h` as a channel. With entries in the slots that its
index words select, any interleaving of its two sides is answered as by a queue
of its depth: nothing is lost, delivered twice or out of order. -/
namespace Ws63Rf.WlanRingQueue
open WlanRing WlanRingProofs LapCounter BoundedQueue

section Channel
variable {Ring Element : Type}

/-- What the headers leave to the index words: a write that succeeds stores its
entry in the slot of the write index, a read that succeeds returns that of the
read index, and no other call changes an entry. -/
structure Stores (ops : RingOps Ring Element) (entries : Ring → BitVec 7 → Element) : Prop where
  write_refused : ∀ ring element, oalRingIsFull (ops.readCtrl ring) (ops.writeCtrl ring) = true →
    entries (ops.oalRingWrite ring element).2 = entries ring
  write_done : ∀ ring element, oalRingIsFull (ops.readCtrl ring) (ops.writeCtrl ring) = false →
    entries (ops.oalRingWrite ring element).2 =
      Function.update (entries ring) (ops.writeCtrl ring).index element
  read_refused : ∀ ring element, oalRingIsEmpty (ops.readCtrl ring) (ops.writeCtrl ring) = true →
    entries (ops.oalRingRead ring element).2.2 = entries ring
  read_done : ∀ ring element, oalRingIsEmpty (ops.readCtrl ring) (ops.writeCtrl ring) = false →
    (ops.oalRingRead ring element).2.1 = entries ring (ops.readCtrl ring).index ∧
      entries (ops.oalRingRead ring element).2.2 = entries ring

/-- What the caller of either side learns: a code, and the entry with a code of 0. -/
def answer (ops : RingOps Ring Element) (ring : Ring) : Action Element → Answer Element × Ring
  | .write element =>
    let (code, ring) := ops.oalRingWrite ring element
    (if code = 0 then .taken else .refused, ring)
  | .read element =>
    let (code, entry, ring) := ops.oalRingRead ring element
    (if code = 0 then .delivered entry else .refused, ring)

/-- The same call, made to a queue. -/
def request : Action Element → Request Element
  | .write element => .push element
  | .read _ => .pop

/-! ## The ring keeps to the queue -/

/-- A ring that holds a queue: its words count the steps of the two sides, and
the slots in between hold the elements. -/
structure Holds (depth : Nat) (kept : BitVec 24) (ops : RingOps Ring Element)
    (entries : Ring → BitVec 7 → Element) (reads writes : Nat) (ring : Ring) (queue : List Element) :
    Prop where
  ordered : reads ≤ writes
  bounded : writes ≤ reads + depth
  read : Encodes depth kept (ops.readCtrl ring) reads
  write : Encodes depth kept (ops.writeCtrl ring) writes
  elements : queue = between depth (fun i => entries ring (.ofNat 7 i)) reads writes

variable {ops : RingOps Ring Element} {entries : Ring → BitVec 7 → Element} {depth : Nat}
  {kept : BitVec 24} {ring : Ring} {queue : List Element} {reads writes : Nat}

theorem slot_of_count (encodes : Encodes depth kept ctrl n) :
    BitVec.ofNat 7 (position depth n) = ctrl.index := by
  rw [← encodes.index, BitVec.ofNat_toNat, BitVec.setWidth_eq]

theorem Holds.length (holds : Holds depth kept ops entries reads writes ring queue) :
    queue.length = writes - reads := by
  rw [holds.elements, length_between]

/-- A ring with the same words and entries holds the same queue. -/
theorem Holds.unchanged (holds : Holds depth kept ops entries reads writes ring queue) {after : Ring}
    (readCtrl : ops.readCtrl after = ops.readCtrl ring)
    (writeCtrl : ops.writeCtrl after = ops.writeCtrl ring) (same : entries after = entries ring) :
    Holds depth kept ops entries reads writes after queue := by
  refine ⟨holds.ordered, holds.bounded, readCtrl ▸ holds.read, writeCtrl ▸ holds.write, ?_⟩
  rw [same]
  exact holds.elements

/-- A store to the slot of the write word is one to the slot of its count. -/
theorem slots_update (fits : depth ≤ 128) (slots : BitVec 7 → Element)
    (encodes : Encodes depth kept ctrl n) (element : Element) {i : Nat} (inside : i < depth) :
    Function.update slots ctrl.index element (.ofNat 7 i) =
      Function.update (fun i => slots (.ofNat 7 i)) (position depth n) element i := by
  have index := encodes.index
  by_cases here : i = position depth n
  · subst here
    rw [slot_of_count encodes]
    simp
  · have other : BitVec.ofNat 7 i ≠ ctrl.index := by
      intro same
      have number := congrArg BitVec.toNat same
      rw [BitVec.toNat_ofNat, index] at number
      omega
    rw [Function.update_of_ne other, Function.update_of_ne here]

section Step
variable (positive : 0 < depth) (fits : depth ≤ 128) (documented : Documented depth ops)
  (stores : Stores ops entries) (holds : Holds depth kept ops entries reads writes ring queue)
include positive fits documented stores holds

/-- A write is answered as a push, and the ring holds the queue behind it. -/
theorem Holds.write_step (element : Element) :
    (answer ops ring (.write element)).1 = (step depth queue (.push element)).1 ∧
      ∃ writes', Holds depth kept ops entries reads writes'
        (answer ops ring (.write element)).2 (step depth queue (.push element)).2 := by
  have count := holds.length
  have full := isFull_iff positive holds.ordered holds.bounded holds.read holds.write
  have ordered := holds.ordered
  have bounded := holds.bounded
  cases refused : oalRingIsFull (ops.readCtrl ring) (ops.writeCtrl ring) with
  | true =>
    obtain ⟨code, readCtrl, writeCtrl⟩ := documented.write_refused ring element refused
    have kept := stores.write_refused ring element refused
    have lapped := full.mp refused
    have noRoom : ¬ queue.length < depth := by omega
    refine ⟨by simp [answer, step, code, noRoom], writes, ?_⟩
    simp only [step, if_neg noRoom]
    exact holds.unchanged readCtrl writeCtrl kept
  | false =>
    obtain ⟨code, readCtrl, advanced⟩ := documented.write_done ring element refused
    have stored := stores.write_done ring element refused
    have near : writes ≠ reads + depth := fun lapped => by
      rw [full.mpr lapped] at refused
      cases refused
    have room : queue.length < depth := by omega
    refine ⟨by simp [answer, step, code, room], writes + 1, by omega, by omega, ?_, ?_, ?_⟩
    · exact readCtrl ▸ holds.read
    · exact holds.write.advance positive fits advanced
    · simp only [step, if_pos room, answer]
      rw [stored, between_congr positive fun i inside =>
          slots_update fits (entries ring) holds.write element inside,
        between_push _ ordered (by omega), ← holds.elements]

/-- A read is answered as a pop. -/
theorem Holds.read_step (element : Element) :
    (answer ops ring (.read element)).1 = (step depth queue .pop).1 ∧
      ∃ reads', Holds depth kept ops entries reads' writes
        (answer ops ring (.read element)).2 (step depth queue .pop).2 := by
  have count := holds.length
  have empty := isEmpty_iff positive holds.ordered holds.bounded holds.read holds.write
  have ordered := holds.ordered
  have bounded := holds.bounded
  cases refused : oalRingIsEmpty (ops.readCtrl ring) (ops.writeCtrl ring) with
  | true =>
    obtain ⟨code, readCtrl, writeCtrl⟩ := documented.read_refused ring element refused
    have kept := stores.read_refused ring element refused
    have same := empty.mp refused
    obtain rfl : queue = [] := List.length_eq_zero_iff.mp (by omega)
    exact ⟨by simp [answer, step, code], reads, holds.unchanged readCtrl writeCtrl kept⟩
  | false =>
    obtain ⟨code, advanced, writeCtrl⟩ := documented.read_done ring element refused
    obtain ⟨entry, kept⟩ := stores.read_done ring element refused
    have apart : writes ≠ reads := fun same => by
      rw [empty.mpr same] at refused
      cases refused
    have filled : reads < writes := by omega
    have elements := holds.elements
    rw [between_pop _ filled, slot_of_count holds.read] at elements
    subst elements
    refine ⟨by simp [answer, step, code, entry], reads + 1, by omega, by omega, ?_, ?_, ?_⟩
    · exact holds.read.advance positive fits advanced
    · exact writeCtrl ▸ holds.write
    · simp only [step, answer]
      rw [kept]

end Step

/-! ## Runs -/

/-- The ring holds the queue behind some numbers of reads and writes. -/
def Channel (depth : Nat) (ops : RingOps Ring Element) (entries : Ring → BitVec 7 → Element)
    (ring : Ring) (queue : List Element) : Prop :=
  ∃ kept reads writes, WlanRingQueue.Holds depth kept ops entries reads writes ring queue

theorem Channel.simulates (positive : 0 < depth) (fits : depth ≤ 128)
    (documented : Documented depth ops) (stores : Stores ops entries)
    (channel : Channel depth ops entries ring queue) (action : Action Element) :
    (answer ops ring action).1 = (step depth queue (request action)).1 ∧
      Channel depth ops entries (answer ops ring action).2 (step depth queue (request action)).2 := by
  obtain ⟨kept, reads, writes, holds⟩ := channel
  cases action with
  | write element =>
    obtain ⟨same, writes', next⟩ := holds.write_step positive fits documented stores element
    exact ⟨same, kept, reads, writes', next⟩
  | read element =>
    obtain ⟨same, reads', next⟩ := holds.read_step positive fits documented stores element
    exact ⟨same, kept, reads', writes, next⟩

/-- Equal words on the ring hold the empty queue. -/
theorem Channel.start (equal : (ops.readCtrl ring).u32 = (ops.writeCtrl ring).u32)
    (below : (ops.readCtrl ring).index.toNat < depth) : Channel depth ops entries ring [] := by
  obtain ⟨n, encoded⟩ := exists_encoded _ below
  refine ⟨_, n, n, Nat.le_refl n, Nat.le_add_right n depth, encoded, ?_, by simp [between]⟩
  rw [← u32_inj.mp equal]
  exact encoded

theorem Channel.answers_eq (positive : 0 < depth) (fits : depth ≤ 128)
    (documented : Documented depth ops) (stores : Stores ops entries)
    (channel : Channel depth ops entries ring queue) (actions : List (Action Element)) :
    answers (answer ops) ring actions = answers (step depth) queue (actions.map request) :=
  answers_eq_of_simulation (Channel depth ops entries)
    (fun channel action => channel.simulates positive fits documented stores action) actions channel

/-- Any interleaving of calls from equal words on the ring is answered as by a
queue of the ring's depth. -/
theorem ring_answers_as_queue (ops : RingOps Ring Element) (entries : Ring → BitVec 7 → Element)
    (depth : Nat) (positive : 1 ≤ depth) (fits : depth ≤ 128) (documented : Documented depth ops)
    (stores : Stores ops entries) (ring : Ring)
    (equal : (ops.readCtrl ring).u32 = (ops.writeCtrl ring).u32)
    (below : (ops.readCtrl ring).index.toNat < depth) (actions : List (Action Element)) :
    answers (answer ops) ring actions = answers (step depth) [] (actions.map request) :=
  (Channel.start equal below).answers_eq positive fits documented stores actions

/-- What the reader has received are the elements whose writes were taken, in
order and once each, but for at most a ringful that it has yet to receive. -/
theorem ring_delivers_in_order (ops : RingOps Ring Element) (entries : Ring → BitVec 7 → Element)
    (depth : Nat) (positive : 1 ≤ depth) (fits : depth ≤ 128) (documented : Documented depth ops)
    (stores : Stores ops entries) (ring : Ring)
    (equal : (ops.readCtrl ring).u32 = (ops.writeCtrl ring).u32)
    (below : (ops.readCtrl ring).index.toNat < depth) (actions : List (Action Element)) :
    let answered := answers (answer ops) ring actions
    ∃ pending, accepted (actions.map request) answered = delivered answered ++ pending ∧
      pending.length ≤ depth := by
  intro answered
  have same : answered = answers (step depth) [] (actions.map request) :=
    (Channel.start equal below).answers_eq positive fits documented stores actions
  have order := delivered_append_behind depth [] (actions.map request)
  have bounded : ([] : List Element).length ≤ depth := Nat.zero_le depth
  rw [same]
  exact ⟨_, order.symm, length_behind_le depth bounded _⟩

end Channel

/-! ## A ring with entries -/

/-- The ring of index words with an entry beside each index. -/
def entryRing (Element : Type) (depth : Nat) :
    RingOps ((OalRingIndexCtrl × OalRingIndexCtrl) × (BitVec 7 → Element)) Element where
  readCtrl ring := ring.1.1
  writeCtrl ring := ring.1.2
  oalRingWrite ring element :=
    if oalRingIsFull ring.1.1 ring.1.2 then (-1, ring)
    else (0, (ring.1.1, advance depth ring.1.2), Function.update ring.2 ring.1.2.index element)
  oalRingRead ring element :=
    if oalRingIsEmpty ring.1.1 ring.1.2 then (-1, element, ring)
    else (0, ring.2 ring.1.1.index, (advance depth ring.1.1, ring.1.2), ring.2)

theorem documented_entryRing (Element : Type) (depth : Nat) :
    Documented depth (entryRing Element depth) where
  write_refused ring element full := by
    simp only [entryRing] at full
    simp [entryRing, full]
  write_done ring element room := by
    simp only [entryRing] at room
    simp [entryRing, room, advanced_advance]
  read_refused ring element empty := by
    simp only [entryRing] at empty
    simp [entryRing, empty]
  read_done ring element filled := by
    simp only [entryRing] at filled
    simp [entryRing, filled, advanced_advance]

theorem stores_entryRing (Element : Type) (depth : Nat) :
    Stores (entryRing Element depth) Prod.snd where
  write_refused ring element full := by
    simp only [entryRing] at full
    simp [entryRing, full]
  write_done ring element room := by
    simp only [entryRing] at room
    simp [entryRing, room]
  read_refused ring element empty := by
    simp only [entryRing] at empty
    simp [entryRing, empty]
  read_done ring element filled := by
    simp only [entryRing] at filled
    simp [entryRing, filled]

/-- A ring of two entries, started at its last index, refuses a third write. -/
theorem ring_answers_as_queue_refused :
    let word : OalRingIndexCtrl := ⟨1, 0, 7⟩
    let actions : List (Action Nat) :=
      [.write 10, .write 11, .write 12, .read 0, .write 13, .read 0, .read 0, .read 0]
    answers (answer (entryRing Nat 2)) ((word, word), fun _ => 0) actions =
      answers (step 2) [] (actions.map request) :=
  ring_answers_as_queue (entryRing Nat 2) Prod.snd 2 (by decide) (by decide)
    (documented_entryRing Nat 2) (stores_entryRing Nat 2) ((⟨1, 0, 7⟩, ⟨1, 0, 7⟩), fun _ => 0) rfl
    (by decide) _

/-- The deepest ring, over its wrap. -/
theorem ring_delivers_in_order_deepest :
    let word : OalRingIndexCtrl := ⟨127, 1, 5⟩
    let actions : List (Action Nat) := [.write 10, .write 11, .read 0]
    let answered := answers (answer (entryRing Nat 128)) ((word, word), fun _ => 0) actions
    ∃ pending, accepted (actions.map request) answered = delivered answered ++ pending ∧
      pending.length ≤ 128 :=
  ring_delivers_in_order (entryRing Nat 128) Prod.snd 128 (by decide) (by decide)
    (documented_entryRing Nat 128) (stores_entryRing Nat 128)
    ((⟨127, 1, 5⟩, ⟨127, 1, 5⟩), fun _ => 0) rfl (by decide) _

end Ws63Rf.WlanRingQueue
