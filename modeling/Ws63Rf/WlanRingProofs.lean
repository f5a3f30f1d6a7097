import Ws63Rf.LapCounter
import Ws63Rf.WlanRing

/-! The index words over whole runs: each follows a step count round the ring,
and the macros tell the counts apart. -/
namespace Ws63Rf.WlanRingProofs
open WlanRing LapCounter

variable {Ring Element : Type}

/-- The word of a side that has made this many steps from the ring's origin. -/
structure Encodes (depth : Nat) (kept : BitVec 24) (ctrl : OalRingIndexCtrl) (n : Nat) : Prop where
  index : ctrl.index.toNat = position depth n
  wrapFlag : ctrl.wrapFlag = BitVec.ofBool (oddLap depth n)
  resv : ctrl.resv = kept

theorem Encodes.advance (positive : 0 < depth) (fits : depth ≤ 128)
    (encodes : Encodes depth kept before n) (advanced : Advanced depth before after) :
    Encodes depth kept after (n + 1) := by
  obtain ⟨place, lap⟩ := step_next positive n
  have bound := position_lt positive n
  rw [← encodes.index] at place lap bound
  refine ⟨?_, ?_, advanced.resv.trans encodes.resv⟩
  · rw [advanced.index, place]
    by_cases last : before.index.toNat + 1 = depth
    · simp [last]
    · have inside : before.index.toNat + 1 < 128 := by omega
      simp [last, BitVec.toNat_add, inside]
  · rw [advanced.wrapFlag, lap, encodes.wrapFlag]
    split
    · cases oddLap depth n <;> rfl
    · rfl

/-! ## What the macros tell -/

section Macros
variable {readCtrl writeCtrl : OalRingIndexCtrl} {depth reads writes : Nat} {kept : BitVec 24}

private theorem index_eq_iff (read : Encodes depth kept readCtrl reads)
    (write : Encodes depth kept writeCtrl writes) :
    readCtrl.index = writeCtrl.index ↔ position depth reads = position depth writes := by
  rw [← BitVec.toNat_inj, read.index, write.index]

private theorem wrapFlag_eq_iff (read : Encodes depth kept readCtrl reads)
    (write : Encodes depth kept writeCtrl writes) :
    readCtrl.wrapFlag = writeCtrl.wrapFlag ↔ oddLap depth reads = oddLap depth writes := by
  rw [read.wrapFlag, write.wrapFlag]
  cases oddLap depth reads <;> cases oddLap depth writes <;> decide

variable (positive : 0 < depth) (ordered : reads ≤ writes) (bounded : writes ≤ reads + depth)
  (read : Encodes depth kept readCtrl reads) (write : Encodes depth kept writeCtrl writes)
include positive ordered bounded read write

theorem isEmpty_iff : oalRingIsEmpty readCtrl writeCtrl = true ↔ writes = reads := by
  rw [← same_iff positive ordered bounded, ← index_eq_iff read write, ← wrapFlag_eq_iff read write,
    oalRingIsEmpty, beq_iff_eq, u32_inj]
  have resv : readCtrl.resv = writeCtrl.resv := read.resv.trans write.resv.symm
  constructor
  · rintro rfl
    exact ⟨rfl, rfl⟩
  · rintro ⟨index, wrapFlag⟩
    cases readCtrl
    cases writeCtrl
    simp_all

theorem isFull_iff : oalRingIsFull readCtrl writeCtrl = true ↔ writes = reads + depth := by
  rw [← lapped_iff positive ordered bounded, ← index_eq_iff read write, ne_eq,
    ← wrapFlag_eq_iff read write]
  simp [oalRingIsFull]

end Macros

/-- What the macros say about these numbers of successful writes and reads. -/
structure Occupancy (depth : Nat) (readCtrl writeCtrl : OalRingIndexCtrl) (writes reads : Nat) :
    Prop where
  ordered : reads ≤ writes
  bounded : writes ≤ reads + depth
  empty : oalRingIsEmpty readCtrl writeCtrl = true ↔ writes = reads
  full : oalRingIsFull readCtrl writeCtrl = true ↔ writes = reads + depth
  exclusive : ¬ (oalRingIsEmpty readCtrl writeCtrl = true ∧ oalRingIsFull readCtrl writeCtrl = true)
  straight : oalRingWrapAround readCtrl writeCtrl = false →
    (writes : Int) - reads = writeCtrl.index.toNat - readCtrl.index.toNat
  wrapped : oalRingWrapAround readCtrl writeCtrl = true →
    (writes : Int) - reads = depth - (readCtrl.index.toNat - writeCtrl.index.toNat)

/-! ## Runs -/

/-- The invariant of a run: from a common start both words follow the counts of
their side, and the writer is at most one lap ahead. -/
structure Tracks (depth : Nat) (kept : BitVec 24) (start : Nat) (ops : RingOps Ring Element)
    (progress : Progress Ring) : Prop where
  ordered : progress.reads ≤ progress.writes
  bounded : progress.writes ≤ progress.reads + depth
  read : Encodes depth kept (ops.readCtrl progress.ring) (start + progress.reads)
  write : Encodes depth kept (ops.writeCtrl progress.ring) (start + progress.writes)

section Runs
variable {ops : RingOps Ring Element} {depth start : Nat} {kept : BitVec 24}

theorem Tracks.empty_iff (positive : 0 < depth) (tracks : Tracks depth kept start ops progress) :
    oalRingIsEmpty (ops.readCtrl progress.ring) (ops.writeCtrl progress.ring) = true ↔
      progress.writes = progress.reads := by
  have ordered := tracks.ordered
  have bounded := tracks.bounded
  rw [isEmpty_iff positive (by omega) (by omega) tracks.read tracks.write]
  omega

theorem Tracks.full_iff (positive : 0 < depth) (tracks : Tracks depth kept start ops progress) :
    oalRingIsFull (ops.readCtrl progress.ring) (ops.writeCtrl progress.ring) = true ↔
      progress.writes = progress.reads + depth := by
  have ordered := tracks.ordered
  have bounded := tracks.bounded
  rw [isFull_iff positive (by omega) (by omega) tracks.read tracks.write]
  omega

/-- All an action can do: nothing, one successful write, or one successful read. -/
theorem step_cases (documented : Documented depth ops) (progress : Progress Ring)
    (action : Action Element) :
    let next := ops.step progress action
    (next.writes = progress.writes ∧ next.reads = progress.reads ∧
      ops.readCtrl next.ring = ops.readCtrl progress.ring ∧
      ops.writeCtrl next.ring = ops.writeCtrl progress.ring) ∨
    (oalRingIsFull (ops.readCtrl progress.ring) (ops.writeCtrl progress.ring) = false ∧
      next.writes = progress.writes + 1 ∧ next.reads = progress.reads ∧
      ops.readCtrl next.ring = ops.readCtrl progress.ring ∧
      Advanced depth (ops.writeCtrl progress.ring) (ops.writeCtrl next.ring)) ∨
    (oalRingIsEmpty (ops.readCtrl progress.ring) (ops.writeCtrl progress.ring) = false ∧
      next.writes = progress.writes ∧ next.reads = progress.reads + 1 ∧
      Advanced depth (ops.readCtrl progress.ring) (ops.readCtrl next.ring) ∧
      ops.writeCtrl next.ring = ops.writeCtrl progress.ring) := by
  cases action with
  | write element =>
    cases refused : oalRingIsFull (ops.readCtrl progress.ring) (ops.writeCtrl progress.ring) with
    | true =>
      obtain ⟨code, same⟩ := documented.write_refused progress.ring element refused
      exact .inl ⟨by simp [RingOps.step, code], rfl, same⟩
    | false =>
      obtain ⟨code, done⟩ := documented.write_done progress.ring element refused
      exact .inr (.inl ⟨rfl, by simp [RingOps.step, code], rfl, done⟩)
  | read element =>
    cases refused : oalRingIsEmpty (ops.readCtrl progress.ring) (ops.writeCtrl progress.ring) with
    | true =>
      obtain ⟨code, same⟩ := documented.read_refused progress.ring element refused
      exact .inl ⟨rfl, by simp [RingOps.step, code], same⟩
    | false =>
      obtain ⟨code, done⟩ := documented.read_done progress.ring element refused
      exact .inr (.inr ⟨rfl, rfl, by simp [RingOps.step, code], done⟩)

/-- Every action of either side keeps the invariant, refused or not. -/
theorem Tracks.step (positive : 0 < depth) (fits : depth ≤ 128)
    (documented : Documented depth ops) (tracks : Tracks depth kept start ops progress)
    (action : Action Element) : Tracks depth kept start ops (ops.step progress action) := by
  have full := tracks.full_iff positive
  have empty := tracks.empty_iff positive
  obtain ⟨ordered, bounded, read, write⟩ := tracks
  rcases step_cases documented progress action with
    ⟨writes, reads, readCtrl, writeCtrl⟩ | ⟨room, writes, reads, readCtrl, advanced⟩ |
      ⟨filled, writes, reads, advanced, writeCtrl⟩
  · exact ⟨by omega, by omega, by rwa [readCtrl, reads], by rwa [writeCtrl, writes]⟩
  · rw [← Bool.not_eq_true, full] at room
    refine ⟨by omega, by omega, by rwa [readCtrl, reads], ?_⟩
    rw [writes]
    exact write.advance positive fits advanced
  · rw [← Bool.not_eq_true, empty] at filled
    refine ⟨by omega, by omega, ?_, by rwa [writeCtrl, writes]⟩
    rw [reads]
    exact read.advance positive fits advanced

theorem Tracks.foldl (positive : 0 < depth) (fits : depth ≤ 128)
    (documented : Documented depth ops) (actions : List (Action Element))
    (tracks : Tracks depth kept start ops progress) :
    Tracks depth kept start ops (actions.foldl ops.step progress) := by
  induction actions generalizing progress with
  | nil => exact tracks
  | cons action actions ih => exact ih (tracks.step positive fits documented action)

/-- A word whose index is on the ring is the word of some step count. -/
theorem exists_encoded (ctrl : OalRingIndexCtrl) (below : ctrl.index.toNat < depth) :
    ∃ n, Encodes depth ctrl.resv ctrl n := by
  have positive : 0 < depth := Nat.zero_lt_of_lt below
  have place : position depth ctrl.index.toNat = ctrl.index.toNat := Nat.mod_eq_of_lt below
  have first : oddLap depth ctrl.index.toNat = false := by
    simp [oddLap, Nat.div_eq_of_lt below]
  have flag : ctrl.wrapFlag = 0 ∨ ctrl.wrapFlag = 1 := by
    generalize ctrl.wrapFlag = flag
    revert flag
    decide
  rcases flag with unset | set
  · exact ⟨ctrl.index.toNat, place.symm, by rw [unset, first]; rfl, rfl⟩
  · obtain ⟨next, lap⟩ := ahead_past (n := ctrl.index.toNat) (Nat.le_refl depth) (by omega) positive
    exact ⟨ctrl.index.toNat + depth, by omega, by rw [set, lap, first]; rfl, rfl⟩

/-- Both views of the words agree with the counts wherever the invariant holds. -/
theorem Tracks.occupancy (positive : 0 < depth) (tracks : Tracks depth kept start ops progress) :
    Occupancy depth (ops.readCtrl progress.ring) (ops.writeCtrl progress.ring)
      progress.writes progress.reads := by
  have full := tracks.full_iff positive
  have empty := tracks.empty_iff positive
  obtain ⟨ordered, bounded, read, write⟩ := tracks
  have wrap := wrapFlag_eq_iff read write
  have cases := lap_cases positive (show start + progress.reads ≤ start + progress.writes by omega)
    (by omega)
  rw [← read.index, ← write.index] at cases
  refine ⟨ordered, bounded, empty, full, ?_, ?_, ?_⟩
  · rintro ⟨drained, filled⟩
    have none := empty.mp drained
    have all := full.mp filled
    omega
  · intro straight
    have same := wrap.mp (by simpa [oalRingWrapAround] using straight)
    rcases cases with ⟨lap, place⟩ | ⟨lap, place⟩
    · omega
    · rw [same] at lap
      simp at lap
  · intro wrapped
    have other := mt wrap.mpr (by simpa [oalRingWrapAround] using wrapped)
    rcases cases with ⟨lap, place⟩ | ⟨lap, place⟩
    · exact absurd lap.symm other
    · omega

/-- In every run that starts with equal words whose index lies on the ring, the
macros decide the occupancy of the ring. -/
theorem ring_occupancy_decided (ops : RingOps Ring Element) (depth : Nat) (positive : 1 ≤ depth)
    (fits : depth ≤ 128) (documented : Documented depth ops) (ring : Ring)
    (equal : (ops.readCtrl ring).u32 = (ops.writeCtrl ring).u32)
    (below : (ops.readCtrl ring).index.toNat < depth) (actions : List (Action Element)) :
    let last := ops.run ring actions
    Occupancy depth (ops.readCtrl last.ring) (ops.writeCtrl last.ring) last.writes last.reads := by
  obtain ⟨start, encoded⟩ := exists_encoded _ below
  have first : Tracks depth (ops.readCtrl ring).resv start ops ⟨ring, 0, 0⟩ := by
    refine ⟨Nat.le_refl 0, Nat.zero_le _, encoded, ?_⟩
    change Encodes depth _ (ops.writeCtrl ring) start
    rw [← u32_inj.mp equal]
    exact encoded
  exact (first.foldl positive fits documented actions).occupancy positive

end Runs

/-! ## A ring of index words alone -/

/-- The successor word a ring of this depth is documented to store. -/
def advance (depth : Nat) (ctrl : OalRingIndexCtrl) : OalRingIndexCtrl :=
  if ctrl.index.toNat + 1 = depth then ⟨0, ~~~ctrl.wrapFlag, ctrl.resv⟩
  else ⟨ctrl.index + 1, ctrl.wrapFlag, ctrl.resv⟩

/-- The ring that keeps its read and its write word and no entries. -/
def bareRing (depth : Nat) : RingOps (OalRingIndexCtrl × OalRingIndexCtrl) Unit where
  readCtrl := Prod.fst
  writeCtrl := Prod.snd
  oalRingWrite ring _ :=
    if oalRingIsFull ring.1 ring.2 then (-1, ring) else (0, ring.1, advance depth ring.2)
  oalRingRead ring element :=
    if oalRingIsEmpty ring.1 ring.2 then (-1, element, ring)
    else (0, element, advance depth ring.1, ring.2)

theorem advanced_advance (depth : Nat) (ctrl : OalRingIndexCtrl) :
    Advanced depth ctrl (advance depth ctrl) := by
  unfold advance
  by_cases last : ctrl.index.toNat + 1 = depth
  · exact ⟨by simp [last], by simp [last], by simp [last]⟩
  · exact ⟨by simp [last], by simp [last], by simp [last]⟩

theorem documented_bareRing (depth : Nat) : Documented depth (bareRing depth) where
  write_refused ring element full := by
    simp only [bareRing] at full
    simp [bareRing, full]
  write_done ring element room := by
    simp only [bareRing] at room
    simp [bareRing, room, advanced_advance]
  read_refused ring element empty := by
    simp only [bareRing] at empty
    simp [bareRing, empty]
  read_done ring element filled := by
    simp only [bareRing] at filled
    simp [bareRing, filled, advanced_advance]

/-- From equal words with index 1 a ring of depth 1 is full after one write,
and the macro does not say so. -/
theorem ring_start_off_the_ring :
    ¬ ∀ (ops : RingOps (OalRingIndexCtrl × OalRingIndexCtrl) Unit) (depth : Nat),
      1 ≤ depth → depth ≤ 128 → Documented depth ops →
      ∀ ring, (ops.readCtrl ring).u32 = (ops.writeCtrl ring).u32 →
        ∀ actions : List (Action Unit),
          let last := ops.run ring actions
          Occupancy depth (ops.readCtrl last.ring) (ops.writeCtrl last.ring) last.writes
            last.reads := by
  intro decided
  let word : OalRingIndexCtrl := ⟨1, 0, 0⟩
  have occupancy := decided (bareRing 1) 1 (Nat.le_refl 1) (by omega) (documented_bareRing 1)
    (word, word) rfl [.write ()]
  have run : (bareRing 1).run (word, word) [.write ()] = ⟨(word, ⟨2, 0, 0⟩), 1, 0⟩ := rfl
  rw [run] at occupancy
  have full : oalRingIsFull word ⟨2, 0, 0⟩ = true := occupancy.full.mpr rfl
  cases full

/-- The deepest ring, started at its last index, meets the conditions. -/
theorem ring_occupancy_decided_deepest :
    let word : OalRingIndexCtrl := ⟨127, 1, 5⟩
    let last := (bareRing 128).run (word, word) [.write (), .read (), .read (), .write ()]
    Occupancy 128 last.ring.1 last.ring.2 last.writes last.reads :=
  ring_occupancy_decided (bareRing 128) 128 (by omega) (Nat.le_refl 128) (documented_bareRing 128)
    (⟨127, 1, 5⟩, ⟨127, 1, 5⟩) rfl (by decide) [.write (), .read (), .read (), .write ()]

end Ws63Rf.WlanRingProofs
