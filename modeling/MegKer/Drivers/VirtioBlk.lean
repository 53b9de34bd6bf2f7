import MegKer.Drivers.Virtio
import MegKer.Foundation.ByteMemory
import MegKer.Foundation.Transition
import Mathlib.Data.List.Forall2
import Mathlib.Tactic.IntervalCases
import Mathlib.Tactic.SplitIfs

/-!
# The virtio block device

`virtio_blk_read_sector` of `arch/aarch64/drivers/virtio_blk.c`, over `virtio_submit_and_wait` of
`virtio.c`: a read is a chain of three descriptors, for a header, the buffer of the caller and a status
byte. The driver writes the chain into the first descriptors each time, publishes the first of them and
waits for a used entry.

`BlkQueue` is the system of the driver and a device. The device pops a descriptor, walks its chain,
serves the request that the header describes and posts a used entry; how it serves the request is left
open, except that it writes the data of the sector when the status is zero. The history records what
the device has seen and done for each request (`BlkRequest`) and what each call has returned
(`BlkReturn`). The driver does not tell requests apart; the invariant (`Exchange`) is that there is only
one at a time, in one of seven stages.
-/

set_option autoImplicit false
set_option relaxedAutoImplicit false

namespace MegKer.Drivers

open Foundation

/-! ### The code -/

def virtioBlkTIn : ℕ := 0

/-- The bytes of `virtio_blk_req_header_t`, as `virtio_blk_read_sector` fills it. -/
def reqHeader (lba : UInt32) : List UInt8 := le32 virtioBlkTIn ++ le32 0 ++ le64 lba.toNat

/-- The memory of the driver: `req_hdr` and `req_status`. -/
structure BlkMemory where
  reqHdr : ℕ
  reqStatus : ℕ

/-- The arguments of a call of `virtio_blk_read_sector`. -/
structure BlkCall where
  lba : UInt32
  buf : ℕ
  deriving DecidableEq, Repr

/-- The array `descs`. -/
def blkDescs (b : BlkMemory) (buf : ℕ) : List VirtqDesc :=
  [⟨b.reqHdr, 16, 0, 0⟩, ⟨buf, 512, virtqDescFWrite, 0⟩, ⟨b.reqStatus, 1, virtqDescFWrite, 0⟩]

/-- The descriptor that `virtio_submit_and_wait` writes. -/
def linkDesc (descs : List VirtqDesc) (count i : ℕ) : VirtqDesc where
  addr := (descs.getD i ⟨0, 0, 0, 0⟩).addr
  len := (descs.getD i ⟨0, 0, 0, 0⟩).len
  flags := (descs.getD i ⟨0, 0, 0, 0⟩).flags ||| if i + 1 < count then virtqDescFNext else 0
  next := if i + 1 < count then i + 1 else 0

/-! ### The driver and the device -/

/-- How far a call of `virtio_blk_read_sector` has come. -/
inductive BlkPoint
  | outside
  /-- In front of the writes of the header. -/
  | header (call : BlkCall)
  /-- In front of the write of a descriptor in `virtio_submit_and_wait`. -/
  | describe (call : BlkCall) (i : ℕ)
  /-- In front of the two writes of `publish`. -/
  | fill (call : BlkCall)
  | count (call : BlkCall)
  /-- In the loop that waits for a used entry. -/
  | wait (call : BlkCall)
  /-- In front of the read of the used entry. -/
  | take (call : BlkCall)
  /-- In front of the read of the status. -/
  | status (call : BlkCall) (elem : UsedElem)
  deriving DecidableEq, Repr

/-- What the device has seen and done for a request. -/
structure BlkRequest where
  chain : List VirtqDesc
  type : ℕ
  sector : ℕ
  status : UInt8
  entry : UsedElem
  deriving DecidableEq, Repr

/-- What a call has consumed and returned, and the buffer at that time. -/
structure BlkReturn where
  call : BlkCall
  /-- The used entry that it has read. -/
  elem : UsedElem
  /-- The value of `virtio_submit_and_wait`. -/
  len : ℕ
  result : Bool
  contents : List UInt8
  deriving DecidableEq, Repr

/-- How far the device has come with a request. -/
inductive BlkDevicePoint
  | idle
  | serving (head : ℕ) (chain : List VirtqDesc)
  | answered (request : BlkRequest)
  /-- The used entry is written; in front of the update of the counter. -/
  | posted (request : BlkRequest)
  deriving DecidableEq, Repr

/-- The sectors of a disk. -/
structure SectorDisk where
  sector : ℕ → List UInt8
  length_sector : ∀ n, (sector n).length = 512

/-- The driver and the device, with the history. -/
structure BlkQueue where
  diskPresent : Bool
  dev : VirtioDevice
  memory : ByteMemory
  point : BlkPoint
  /-- The counter of the device in the ring of available descriptors. -/
  popped : ℕ
  device : BlkDevicePoint
  served : List BlkRequest
  returned : List BlkReturn

/-- What may happen next. -/
inductive BlkAction
  | call (call : BlkCall)
  /-- A step of the call in progress. -/
  | advance
  /-- The device pops a descriptor and walks its chain. -/
  | pop
  /-- The device serves the request, and is going to report a length. -/
  | serve (status : UInt8) (data : List UInt8) (len : ℕ)
  /-- The device writes the used entry. -/
  | post
  /-- The device moves the counter of the used entries. -/
  | complete
  deriving DecidableEq, Repr

/-- The start: `virtio_blk_init` has found the device, and the memory may hold anything. -/
def BlkQueue.probed (memory : ByteMemory) : BlkQueue where
  diskPresent := true
  dev := VirtioDevice.probed
  memory := memory
  point := .outside
  popped := 0
  device := .idle
  served := []
  returned := []

/-- The chain from a descriptor on, with a bound on its length. -/
def chainFrom (desc : ℕ → VirtqDesc) : ℕ → ℕ → List VirtqDesc
  | 0, _ => []
  | bound + 1, i =>
    desc i :: if (desc i).flags &&& virtqDescFNext ≠ 0 then chainFrom desc bound (desc i).next else []

/-- The device may read, or write, a number of bytes through the descriptor. -/
def VirtqDesc.Reads (desc : VirtqDesc) (n : ℕ) : Prop :=
  desc.flags &&& virtqDescFWrite = 0 ∧ n ≤ desc.len

def VirtqDesc.Writes (desc : VirtqDesc) (n : ℕ) : Prop :=
  desc.flags &&& virtqDescFWrite ≠ 0 ∧ n ≤ desc.len

instance (desc : VirtqDesc) (n : ℕ) : Decidable (desc.Reads n) := inferInstanceAs (Decidable (_ ∧ _))

instance (desc : VirtqDesc) (n : ℕ) : Decidable (desc.Writes n) :=
  inferInstanceAs (Decidable (_ ∧ _))

/-- A read request, served through its chain. When the status is zero, the data is the sector. -/
def BlkQueue.serve (q : BlkQueue) (disk : SectorDisk) (status : UInt8) (data : List UInt8) (len : ℕ)
    (head : ℕ) : List VirtqDesc → Option BlkQueue
  | [header, buffer, last] =>
    let type := u32At q.memory header.addr
    let sector := u64At q.memory (header.addr + 8)
    if header.Reads 16 ∧ buffer.Writes data.length ∧ last.Writes 1 ∧ type = virtioBlkTIn ∧
        (status = 0 → data = disk.sector sector) then
      some { q with
        memory := (q.memory.writeBytes buffer.addr data).writeBytes last.addr [status]
        device := .answered ⟨[header, buffer, last], type, sector, status, ⟨head, len⟩⟩ }
    else none
  | _ => none

/-- A step of the driver. -/
def BlkQueue.advance (b : BlkMemory) (q : BlkQueue) : BlkPoint → Option BlkQueue
  | .outside => none
  | .header call =>
    some { q with memory := q.memory.writeBytes b.reqHdr (reqHeader call.lba)
                  point := .describe call 0 }
  | .describe call i =>
    some { q with dev := q.dev.writeDesc i (linkDesc (blkDescs b call.buf) 3 i)
                  point := if i + 1 < 3 then .describe call (i + 1) else .fill call }
  | .fill call => some { q with dev := q.dev.writeAvail 0, point := .count call }
  | .count call => some { q with dev := q.dev.countAvail, point := .wait call }
  | .wait call =>
    some { q with point := if q.dev.usedIdx = q.dev.usedSeen then .wait call else .take call }
  | .take call => some { q with dev := q.dev.countSeen, point := .status call q.dev.nextUsed }
  | .status call elem =>
    some { q with point := .outside
                  returned := q.returned ++ [⟨call, elem, elem.len, q.memory b.reqStatus == 0,
                    q.memory.readBytes call.buf 512⟩] }

/-- The step relation; calls do not overlap. -/
def BlkQueue.step (b : BlkMemory) (disk : SectorDisk) (q : BlkQueue) : BlkAction → Option BlkQueue
  | .call call =>
    if q.point = .outside then
      some { q with point := if q.diskPresent then .header call else .outside }
    else none
  | .advance => q.advance b q.point
  | .pop =>
    if q.device = .idle ∧ q.popped ≠ q.dev.availIdx then
      let head := q.dev.nextAvail q.popped
      some { q with device := .serving head (chainFrom q.dev.desc queueSize head)
                    popped := wrap16 (q.popped + 1) }
    else none
  | .serve status data len =>
    match q.device with
    | .serving head chain => q.serve disk status data len head chain
    | _ => none
  | .post =>
    match q.device with
    | .answered request =>
      some { q with dev := q.dev.writeUsed request.entry, device := .posted request }
    | _ => none
  | .complete =>
    match q.device with
    | .posted request =>
      some { q with dev := q.dev.countUsed, device := .idle, served := q.served ++ [request] }
    | _ => none

/-! ### The exchange of one request -/

section Exchange

variable (b : BlkMemory) (disk : SectorDisk)

/-- The status byte of the driver is not in the buffer of the caller. -/
def BlkCall.Apart (call : BlkCall) : Prop :=
  b.reqStatus < call.buf ∨ call.buf + 512 ≤ b.reqStatus

instance (call : BlkCall) : Decidable (call.Apart b) := inferInstanceAs (Decidable (_ ∨ _))

/-- The calls of a run have buffers of their own. -/
def BlkAction.Apart : BlkAction → Prop
  | .call request => request.Apart b
  | _ => True

instance : (action : BlkAction) → Decidable (action.Apart b)
  | .call call => inferInstanceAs (Decidable (call.Apart b))
  | .advance | .pop | .serve .. | .post | .complete => isTrue trivial

/-- The chain that a call should show the device: the header, read-only, the buffer and the status byte,
both for the device to write. -/
def readChain (buf : ℕ) : List VirtqDesc :=
  [⟨b.reqHdr, 16, virtqDescFNext, 1⟩, ⟨buf, 512, virtqDescFWrite ||| virtqDescFNext, 2⟩,
    ⟨b.reqStatus, 1, virtqDescFWrite, 0⟩]

/-- The header in memory asks for the sector of the call. -/
def BlkCall.HeaderIn (call : BlkCall) (memory : ByteMemory) : Prop :=
  u32At memory b.reqHdr = virtioBlkTIn ∧ u64At memory (b.reqHdr + 8) = call.lba.toNat

/-- The request of a call is in memory. -/
structure BlkCall.Described (call : BlkCall) (dev : VirtioDevice) (memory : ByteMemory) : Prop where
  apart : call.Apart b
  header : call.HeaderIn b memory
  desc : ∀ i < 3, dev.desc i = linkDesc (blkDescs b call.buf) 3 i

/-- The device has served a call. -/
structure BlkCall.Served (call : BlkCall) (r : BlkRequest) (memory : ByteMemory) : Prop where
  chain : r.chain = readChain b call.buf
  type : r.type = virtioBlkTIn
  sector : r.sector = call.lba.toNat
  status : memory b.reqStatus = r.status
  data : r.status = 0 → memory.readBytes call.buf 512 = disk.sector call.lba.toNat

/-- A call has returned what the device has done for it. -/
structure BlkReturn.Answers (ret : BlkReturn) (r : BlkRequest) : Prop where
  chain : r.chain = readChain b ret.call.buf
  type : r.type = virtioBlkTIn
  sector : r.sector = ret.call.lba.toNat
  entry : ret.elem = r.entry
  len : ret.len = r.entry.len
  result : ret.result = true ↔ r.status = 0
  data : ret.result = true → ret.contents = disk.sector ret.call.lba.toNat

/-- What a call has achieved before the device takes part. -/
def BlkPoint.Prepared (dev : VirtioDevice) (memory : ByteMemory) : BlkPoint → Prop
  | .outside => True
  | .header call => call.Apart b
  | .describe call i =>
    i < 3 ∧ call.Apart b ∧ call.HeaderIn b memory ∧
      ∀ j < i, dev.desc j = linkDesc (blkDescs b call.buf) 3 j
  | .fill call => call.Described b dev memory
  | .count call =>
    call.Described b dev memory ∧ dev.availRing (dev.availIdx % queueSize) = 0
  | .wait _ | .take _ | .status _ _ => False

/-- The stages of a request, with the contents of the rings and the request that was served and whose
call has not returned. -/
inductive Stage (q : BlkQueue) : List ℕ → List UsedElem → List BlkRequest → Prop
  | prepare (hdevice : q.device = .idle) (hpoint : q.point.Prepared b q.dev q.memory) :
      Stage q [] [] []
  | offered (call : BlkCall) (hdevice : q.device = .idle) (hpoint : q.point = .wait call)
      (hcall : call.Described b q.dev q.memory) : Stage q [0] [] []
  | serving (call : BlkCall) (hdevice : q.device = .serving 0 (readChain b call.buf))
      (hpoint : q.point = .wait call) (hapart : call.Apart b) (hheader : call.HeaderIn b q.memory) :
      Stage q [] [] []
  | answered (call : BlkCall) (r : BlkRequest) (hdevice : q.device = .answered r)
      (hpoint : q.point = .wait call) (hserved : call.Served b disk r q.memory) : Stage q [] [] []
  | posted (call : BlkCall) (r : BlkRequest) (hdevice : q.device = .posted r)
      (hpoint : q.point = .wait call) (hserved : call.Served b disk r q.memory)
      (hslot : q.dev.usedRing (q.dev.usedIdx % queueSize) = r.entry) : Stage q [] [] []
  | completed (call : BlkCall) (r : BlkRequest) (hdevice : q.device = .idle)
      (hpoint : q.point = .wait call ∨ q.point = .take call)
      (hserved : call.Served b disk r q.memory) : Stage q [] [r.entry] [r]
  | taken (call : BlkCall) (r : BlkRequest) (hdevice : q.device = .idle)
      (hpoint : q.point = .status call r.entry) (hserved : call.Served b disk r q.memory) :
      Stage q [] [] [r]

/-- The invariant: the calls that have returned are answered, and one more may be under way. -/
structure Exchange (q : BlkQueue) (avail : List ℕ) (used : List UsedElem)
    (current : List BlkRequest) : Prop where
  indexed : q.dev.Indexed q.popped
  available_eq : q.dev.available q.popped = avail
  used_eq : q.dev.used = used
  stage : Stage b disk q avail used current
  answers : ∃ done, q.served = done ++ current ∧
    List.Forall₂ (BlkReturn.Answers b disk) q.returned done

end Exchange

theorem exchange_probed (b : BlkMemory) (disk : SectorDisk) (memory : ByteMemory) :
    Exchange b disk (BlkQueue.probed memory) [] [] [] where
  indexed := indexed_probed
  available_eq := indexed_probed.available_eq_nil_iff.mpr rfl
  used_eq := indexed_probed.used_eq_nil_iff.mpr rfl
  stage := .prepare rfl trivial
  answers := ⟨[], rfl, .nil⟩

section Step

variable {b : BlkMemory} {disk : SectorDisk} {q : BlkQueue} {avail : List ℕ} {used : List UsedElem}
  {current : List BlkRequest}

/-- The header that the driver writes. -/
theorem headerIn_writeBytes (call : BlkCall) (memory : ByteMemory) :
    call.HeaderIn b (memory.writeBytes b.reqHdr (reqHeader call.lba)) := by
  have hread : ∀ j < 16, memory.writeBytes b.reqHdr (reqHeader call.lba) (b.reqHdr + j) =
      (reqHeader call.lba).getD j 0 := fun j hj ↦ memory.writeBytes_inside b.reqHdr hj
  refine ⟨u32At_of_le32 (by decide) fun j hj ↦ ?_, u64At_of_le64 ?_ fun j hj ↦ ?_⟩
  · rw [hread j (by omega)]
    interval_cases j <;> rfl
  · exact call.lba.toNat_lt.trans (by decide)
  · rw [Nat.add_assoc, hread (8 + j) (by omega)]
    interval_cases j <;> rfl

/-- The chain that the device walks. -/
theorem BlkCall.Described.chainFrom_eq {call : BlkCall} (h : call.Described b q.dev q.memory) :
    chainFrom q.dev.desc queueSize 0 = readChain b call.buf := by
  have h0 : q.dev.desc 0 = ⟨b.reqHdr, 16, virtqDescFNext, 1⟩ :=
    (h.desc 0 (by decide)).trans (by simp [linkDesc, blkDescs])
  have h1 : q.dev.desc 1 = ⟨call.buf, 512, virtqDescFWrite ||| virtqDescFNext, 2⟩ :=
    h.desc 1 (by decide)
  have h2 : q.dev.desc 2 = ⟨b.reqStatus, 1, virtqDescFWrite, 0⟩ :=
    (h.desc 2 (by decide)).trans (by simp [linkDesc, blkDescs])
  have hnext0 : virtqDescFNext &&& virtqDescFNext ≠ 0 := by decide
  have hnext1 : (virtqDescFWrite ||| virtqDescFNext) &&& virtqDescFNext ≠ 0 := by decide
  have hend : ¬ virtqDescFWrite &&& virtqDescFNext ≠ 0 := by decide
  rw [queueSize, chainFrom, h0, if_pos hnext0, chainFrom, h1, if_pos hnext1, chainFrom, h2,
    if_neg hend, readChain]

/-- The device serves a request as it stands in the chain of a call. -/
theorem serve_eq_some {call : BlkCall} (hapart : call.Apart b) (hheader : call.HeaderIn b q.memory)
    {status : UInt8} {data : List UInt8} {len : ℕ} {q' : BlkQueue}
    (hserve : q.serve disk status data len 0 (readChain b call.buf) = some q') :
    ∃ memory r, q' = { q with memory := memory, device := .answered r } ∧
      call.Served b disk r memory := by
  rw [readChain, BlkQueue.serve] at hserve
  split_ifs at hserve with hconform
  obtain ⟨-, ⟨-, hlength⟩, -, htype, hdata⟩ := hconform
  obtain rfl := Option.some.inj hserve
  rw [hheader.2] at hdata
  refine ⟨_, _, rfl, rfl, htype, hheader.2, ?_, fun hstatus ↦ ?_⟩
  · have hlast : 0 < [status].length := Nat.zero_lt_one
    exact ByteMemory.writeBytes_inside _ b.reqStatus hlast
  · have hsector : data.length = 512 := by rw [hdata hstatus, disk.length_sector]
    have hbuffer : ((q.memory.writeBytes call.buf data).writeBytes b.reqStatus [status]).readBytes
        call.buf 512 = (q.memory.writeBytes call.buf data).readBytes call.buf 512 := by
      refine ByteMemory.readBytes_writeBytes_of_apart _ ?_
      rcases hapart with hbefore | hbehind
      · exact Or.inr hbefore
      · exact Or.inl hbehind
    rw [hbuffer, ← hsector, ByteMemory.readBytes_writeBytes, hdata hstatus]

/-- The device has conforming answers, and serves the request with each of them. -/
theorem exists_serve {call : BlkCall} (hheader : call.HeaderIn b q.memory) {status : UInt8}
    {data : List UInt8} (hlength : data.length ≤ 512)
    (hdata : status = 0 → data = disk.sector call.lba.toNat) (len : ℕ) :
    ∃ q', q.serve disk status data len 0 (readChain b call.buf) = some q' := by
  rw [readChain, BlkQueue.serve, if_pos]
  · exact ⟨_, rfl⟩
  · have hread : virtqDescFNext &&& virtqDescFWrite = 0 := by decide
    have hbuffer : (virtqDescFWrite ||| virtqDescFNext) &&& virtqDescFWrite ≠ 0 := by decide
    have hlast : virtqDescFWrite &&& virtqDescFWrite ≠ 0 := by decide
    refine ⟨⟨hread, le_rfl⟩, ⟨hbuffer, hlength⟩, ⟨hlast, le_rfl⟩, hheader.1, ?_⟩
    rw [hheader.2]
    exact hdata

/-- The steps of a call before the device takes part. -/
theorem Exchange.advance_prepare (h : Exchange b disk q [] [] []) (hdevice : q.device = .idle)
    (hprepared : q.point.Prepared b q.dev q.memory) {q' : BlkQueue}
    (hstep : q.advance b q.point = some q') : ∃ avail, Exchange b disk q' avail [] [] := by
  cases hpoint : q.point with
  | outside =>
    rw [hpoint] at hstep
    exact absurd hstep.symm (Option.some_ne_none q')
  | header call =>
    rw [hpoint] at hstep hprepared
    obtain rfl := Option.some.inj hstep
    refine ⟨[], h.indexed, h.available_eq, h.used_eq, .prepare hdevice ⟨by decide, hprepared, ?_, ?_⟩,
      h.answers⟩
    · exact headerIn_writeBytes call q.memory
    · exact fun j hj ↦ absurd hj (Nat.not_lt_zero j)
  | describe call i =>
    rw [hpoint] at hstep hprepared
    obtain rfl := Option.some.inj hstep
    obtain ⟨hi, hapart, hheader, hdesc⟩ := hprepared
    refine ⟨[], h.indexed.writeDesc _ _, (available_writeDesc ..).trans h.available_eq,
      (used_writeDesc ..).trans h.used_eq, .prepare hdevice ?_, h.answers⟩
    have hlinked : ∀ j < i + 1, (q.dev.writeDesc i (linkDesc (blkDescs b call.buf) 3 i)).desc j =
        linkDesc (blkDescs b call.buf) 3 j := by
      intro j hj
      rcases Nat.lt_succ_iff_lt_or_eq.mp hj with hlt | rfl
      · exact (Function.update_of_ne (Nat.ne_of_lt hlt) _ _).trans (hdesc j hlt)
      · exact Function.update_self _ _ _
    by_cases hmore : i + 1 < 3
    · rw [if_pos hmore]
      exact ⟨hmore, hapart, hheader, hlinked⟩
    · rw [if_neg hmore]
      exact ⟨hapart, hheader, fun j hj ↦ hlinked j (by omega)⟩
  | fill call =>
    rw [hpoint] at hstep hprepared
    obtain rfl := Option.some.inj hstep
    have hroom : (q.dev.available q.popped).length < queueSize := by
      rw [h.available_eq]
      decide
    have hslot : (q.dev.writeAvail 0).availRing (q.dev.availIdx % queueSize) = 0 := by
      rw [VirtioDevice.writeAvail, h.indexed.avail_slot]
      exact Function.update_self _ _ _
    exact ⟨[], h.indexed.writeAvail 0, (h.indexed.available_writeAvail hroom 0).trans h.available_eq,
      (used_writeAvail ..).trans h.used_eq,
      .prepare hdevice ⟨⟨hprepared.apart, hprepared.header, hprepared.desc⟩, hslot⟩, h.answers⟩
  | count call =>
    rw [hpoint] at hstep hprepared
    obtain rfl := Option.some.inj hstep
    obtain ⟨hcall, hslot⟩ := hprepared
    have hroom : (q.dev.available q.popped).length < queueSize := by
      rw [h.available_eq]
      decide
    have hpush := h.indexed.available_countAvail hroom
    rw [h.available_eq, hslot] at hpush
    exact ⟨[0], h.indexed.countAvail, hpush, (used_countAvail ..).trans h.used_eq,
      .offered call hdevice rfl ⟨hcall.apart, hcall.header, hcall.desc⟩, h.answers⟩
  | wait call | take call | status call elem =>
    rw [hpoint] at hprepared
    exact hprepared.elim

/-- While no used entry has come, the driver goes on waiting. -/
theorem Exchange.advance_wait (h : Exchange b disk q avail [] current) {call : BlkCall}
    (hpoint : q.point = .wait call) : q.advance b q.point = some q := by
  have hnone : q.dev.usedIdx = q.dev.usedSeen := h.indexed.used_eq_nil_iff.mp h.used_eq
  rw [hpoint, BlkQueue.advance, if_pos hnone, ← hpoint]

/-- The used entry ends the loop. -/
theorem Exchange.advance_found {r : BlkRequest} (h : Exchange b disk q [] [r.entry] [r])
    {call : BlkCall} (hdevice : q.device = .idle) (hpoint : q.point = .wait call)
    (hserved : call.Served b disk r q.memory) :
    ∃ q', q.advance b q.point = some q' ∧ q'.point = .take call ∧
      Exchange b disk q' [] [r.entry] [r] := by
  have hready : q.dev.usedIdx ≠ q.dev.usedSeen := by
    intro hnone
    have hnil := h.used_eq.symm.trans (h.indexed.used_eq_nil_iff.mpr hnone)
    exact absurd hnil (List.cons_ne_nil _ _)
  rw [hpoint, BlkQueue.advance, if_neg hready]
  exact ⟨_, rfl, rfl, h.indexed, h.available_eq, h.used_eq,
    .completed call r hdevice (Or.inr rfl) hserved, h.answers⟩

/-- The driver takes the used entry. -/
theorem Exchange.advance_take {r : BlkRequest} (h : Exchange b disk q [] [r.entry] [r])
    {call : BlkCall} (hdevice : q.device = .idle) (hpoint : q.point = .take call)
    (hserved : call.Served b disk r q.memory) :
    ∃ q', q.advance b q.point = some q' ∧ q'.point = .status call r.entry ∧
      Exchange b disk q' [] [] [r] := by
  have hready : q.dev.usedIdx ≠ q.dev.usedSeen := by
    intro hnone
    have hnil := h.used_eq.symm.trans (h.indexed.used_eq_nil_iff.mpr hnone)
    exact absurd hnil (List.cons_ne_nil _ _)
  have hsplit := h.used_eq.symm.trans (h.indexed.used_countSeen hready)
  obtain ⟨hentry, hrest⟩ := List.cons.inj hsplit
  rw [hpoint, BlkQueue.advance, ← hentry]
  exact ⟨_, rfl, rfl, h.indexed.countSeen, (available_countSeen ..).trans h.available_eq, hrest.symm,
    .taken call r hdevice rfl hserved, h.answers⟩

/-- The call returns. -/
theorem Exchange.advance_status {r : BlkRequest} (h : Exchange b disk q [] [] [r])
    {call : BlkCall} (hdevice : q.device = .idle) (hpoint : q.point = .status call r.entry)
    (hserved : call.Served b disk r q.memory) :
    ∃ q', q.advance b q.point = some q' ∧ q'.point = .outside ∧ Exchange b disk q' [] [] [] := by
  obtain ⟨done, hdone, hanswers⟩ := h.answers
  have hresult : (q.memory b.reqStatus == 0) = true ↔ r.status = 0 := by
    rw [hserved.status, beq_iff_eq]
  have hlast : BlkReturn.Answers b disk ⟨call, r.entry, r.entry.len, q.memory b.reqStatus == 0,
      q.memory.readBytes call.buf 512⟩ r := by
    refine ⟨hserved.chain, hserved.type, hserved.sector, rfl, rfl, hresult, fun htrue ↦ ?_⟩
    dsimp only
    exact hserved.data (hresult.mp htrue)
  rw [hpoint, BlkQueue.advance]
  refine ⟨_, rfl, rfl, h.indexed, h.available_eq, h.used_eq, .prepare hdevice trivial, done ++ [r],
    hdone.trans (List.append_nil _).symm, ?_⟩
  exact List.rel_append hanswers (List.Forall₂.cons hlast List.Forall₂.nil)

/-- The steps of the driver. -/
theorem Exchange.advance (h : Exchange b disk q avail used current) {q' : BlkQueue}
    (hstep : q.advance b q.point = some q') :
    ∃ avail used current, Exchange b disk q' avail used current := by
  have hstage := h.stage
  cases hstage with
  | prepare hdevice hprepared =>
    obtain ⟨avail, h'⟩ := h.advance_prepare hdevice hprepared hstep
    exact ⟨avail, [], [], h'⟩
  | offered call _ hpoint _ | serving call _ hpoint _ _ | answered call _ _ hpoint _
  | posted call _ _ hpoint _ _ =>
    obtain rfl := Option.some.inj ((h.advance_wait hpoint).symm.trans hstep)
    exact ⟨_, _, _, h⟩
  | completed call r hdevice hpoint hserved =>
    rcases hpoint with hpoint | hpoint
    · obtain ⟨next, hnext, -, h'⟩ := h.advance_found hdevice hpoint hserved
      obtain rfl := Option.some.inj (hnext.symm.trans hstep)
      exact ⟨_, _, _, h'⟩
    · obtain ⟨next, hnext, -, h'⟩ := h.advance_take hdevice hpoint hserved
      obtain rfl := Option.some.inj (hnext.symm.trans hstep)
      exact ⟨_, _, _, h'⟩
  | taken call r hdevice hpoint hserved =>
    obtain ⟨next, hnext, -, h'⟩ := h.advance_status hdevice hpoint hserved
    obtain rfl := Option.some.inj (hnext.symm.trans hstep)
    exact ⟨_, _, _, h'⟩

/-- The device pops the descriptor that was offered. -/
theorem Exchange.pop (h : Exchange b disk q avail used current) (hidle : q.device = .idle)
    (hsome : q.popped ≠ q.dev.availIdx) :
    ∃ call, q.point = .wait call ∧
      Exchange b disk
        { q with device := .serving (q.dev.nextAvail q.popped)
                   (chainFrom q.dev.desc queueSize (q.dev.nextAvail q.popped))
                 popped := wrap16 (q.popped + 1) } [] [] [] := by
  have hsplit := h.available_eq.symm.trans (h.indexed.available_pop hsome)
  have hstage := h.stage
  cases hstage with
  | offered call hdevice hpoint hcall =>
    obtain ⟨hhead, hrest⟩ := List.cons.inj hsplit
    rw [← hhead, hcall.chainFrom_eq]
    exact ⟨call, hpoint, h.indexed.pop, hrest.symm, h.used_eq,
      .serving call rfl hpoint hcall.apart hcall.header, h.answers⟩
  | serving call hdevice | answered call r hdevice | posted call r hdevice =>
    exact absurd (hidle.symm.trans hdevice) BlkDevicePoint.noConfusion
  | prepare | completed | taken => exact absurd hsplit.symm (List.cons_ne_nil _ _)

/-- The device serves the request. -/
theorem Exchange.serve (h : Exchange b disk q avail used current) {status : UInt8}
    {data : List UInt8} {len head : ℕ} {chain : List VirtqDesc}
    (hserving : q.device = .serving head chain) {q' : BlkQueue}
    (hserve : q.serve disk status data len head chain = some q') :
    Exchange b disk q' [] [] [] ∧ q'.point = q.point ∧ ∃ r, q'.device = .answered r := by
  have hstage := h.stage
  cases hstage with
  | serving call hdevice hpoint hapart hheader =>
    obtain ⟨rfl, rfl⟩ := BlkDevicePoint.serving.inj (hserving.symm.trans hdevice)
    obtain ⟨memory, r, rfl, hserved⟩ := serve_eq_some hapart hheader hserve
    exact ⟨⟨h.indexed, h.available_eq, h.used_eq, .answered call r rfl hpoint hserved, h.answers⟩, rfl,
      r, rfl⟩
  | prepare hdevice | offered _ hdevice | completed _ _ hdevice | taken _ _ hdevice
  | answered _ _ hdevice | posted _ _ hdevice =>
    exact absurd (hserving.symm.trans hdevice) BlkDevicePoint.noConfusion

/-- The device writes the used entry. -/
theorem Exchange.post (h : Exchange b disk q avail used current) {r : BlkRequest}
    (hanswered : q.device = .answered r) :
    Exchange b disk { q with dev := q.dev.writeUsed r.entry, device := .posted r } [] [] [] := by
  have hstage := h.stage
  cases hstage with
  | answered call request hdevice hpoint hserved =>
    obtain rfl := BlkDevicePoint.answered.inj (hanswered.symm.trans hdevice)
    have hroom : q.dev.used.length < queueSize := by
      rw [h.used_eq]
      decide
    exact ⟨h.indexed.writeUsed _, (available_writeUsed ..).trans h.available_eq,
      (h.indexed.used_writeUsed hroom _).trans h.used_eq,
      .posted call r rfl hpoint hserved (Function.update_self _ _ _), h.answers⟩
  | prepare hdevice | offered _ hdevice | completed _ _ hdevice | taken _ _ hdevice
  | serving _ hdevice | posted _ _ hdevice =>
    exact absurd (hanswered.symm.trans hdevice) BlkDevicePoint.noConfusion

/-- The device moves the counter of the used entries. -/
theorem Exchange.complete (h : Exchange b disk q avail used current) {r : BlkRequest}
    (hposted : q.device = .posted r) :
    Exchange b disk { q with dev := q.dev.countUsed, device := .idle, served := q.served ++ [r] }
      [] [r.entry] [r] := by
  have hstage := h.stage
  cases hstage with
  | posted call request hdevice hpoint hserved hslot =>
    obtain rfl := BlkDevicePoint.posted.inj (hposted.symm.trans hdevice)
    have hroom : q.dev.used.length < queueSize := by
      rw [h.used_eq]
      decide
    have hpush := h.indexed.used_countUsed hroom
    rw [h.used_eq, hslot] at hpush
    obtain ⟨done, hdone, hanswers⟩ := h.answers
    refine ⟨h.indexed.countUsed, (available_countUsed ..).trans h.available_eq, hpush,
      .completed call r rfl (Or.inl hpoint) hserved, done, ?_, hanswers⟩
    change q.served ++ [r] = done ++ [r]
    rw [hdone, List.append_nil]
  | prepare hdevice | offered _ hdevice | completed _ _ hdevice | taken _ _ hdevice
  | serving _ hdevice | answered _ _ hdevice =>
    exact absurd (hposted.symm.trans hdevice) BlkDevicePoint.noConfusion

/-- The step lemma. -/
theorem exchange_step {action : BlkAction} {q' : BlkQueue}
    (h : ∃ avail used current, Exchange b disk q avail used current)
    (hcall : action.Apart b) (hstep : q.step b disk action = some q') :
    ∃ avail used current, Exchange b disk q' avail used current := by
  obtain ⟨avail, used, current, h⟩ := h
  cases action with
  | call call =>
    rw [BlkQueue.step] at hstep
    split_ifs at hstep with houtside hpresent
    · obtain rfl := Option.some.inj hstep
      have hstage := h.stage
      cases hstage with
      | prepare hdevice hprepared =>
        exact ⟨_, _, _, h.indexed, h.available_eq, h.used_eq, .prepare hdevice hcall,
          h.answers⟩
      | offered _ _ hpoint | serving _ _ hpoint | answered _ _ _ hpoint | posted _ _ _ hpoint
      | taken _ _ _ hpoint => exact absurd (houtside.symm.trans hpoint) BlkPoint.noConfusion
      | completed _ _ _ hpoint =>
        rcases hpoint with hpoint | hpoint <;>
          exact absurd (houtside.symm.trans hpoint) BlkPoint.noConfusion
    · obtain rfl := Option.some.inj hstep
      rw [← houtside]
      exact ⟨_, _, _, h⟩
  | advance => exact h.advance hstep
  | pop =>
    rw [BlkQueue.step] at hstep
    split_ifs at hstep with hready
    obtain rfl := Option.some.inj hstep
    obtain ⟨-, -, h'⟩ := h.pop hready.1 hready.2
    exact ⟨_, _, _, h'⟩
  | serve status data len =>
    cases hdevice : q.device with
    | serving head chain =>
      rw [BlkQueue.step, hdevice] at hstep
      exact ⟨_, _, _, (h.serve hdevice hstep).1⟩
    | idle | answered | posted =>
      rw [BlkQueue.step, hdevice] at hstep
      exact absurd hstep.symm (Option.some_ne_none q')
  | post =>
    cases hdevice : q.device with
    | answered r =>
      rw [BlkQueue.step, hdevice] at hstep
      obtain rfl := Option.some.inj hstep
      exact ⟨_, _, _, h.post hdevice⟩
    | idle | serving | posted =>
      rw [BlkQueue.step, hdevice] at hstep
      exact absurd hstep.symm (Option.some_ne_none q')
  | complete =>
    cases hdevice : q.device with
    | posted r =>
      rw [BlkQueue.step, hdevice] at hstep
      obtain rfl := Option.some.inj hstep
      exact ⟨_, _, _, h.complete hdevice⟩
    | idle | serving | answered =>
      rw [BlkQueue.step, hdevice] at hstep
      exact absurd hstep.symm (Option.some_ne_none q')

end Step

/-! ### Calls return -/

/-- How many steps the device has left with the request that is on its way. -/
def BlkDevicePoint.left (offered : Bool) : BlkDevicePoint → ℕ
  | .idle => if offered then 4 else 0
  | .serving _ _ => 3
  | .answered _ => 2
  | .posted _ => 1

/-- How many steps are left until the call returns, those that only wait apart. -/
def BlkQueue.left (q : BlkQueue) : BlkPoint → ℕ
  | .outside => 0
  | .header _ => 13
  | .describe _ i => 9 + (3 - i)
  | .fill _ => 9
  | .count _ => 8
  | .wait _ => 3 + q.device.left (decide (q.popped ≠ q.dev.availIdx))
  | .take _ => 2
  | .status _ _ => 1

section Returns

variable {b : BlkMemory} {disk : SectorDisk} {q q' : BlkQueue} {avail : List ℕ}
  {used : List UsedElem} {current : List BlkRequest}

theorem left_le_four (offered : Bool) (point : BlkDevicePoint) : point.left offered ≤ 4 := by
  cases point <;> cases offered <;> simp [BlkDevicePoint.left]

/-- The device works for a call that waits. -/
theorem Exchange.wait_of_busy (h : Exchange b disk q avail used current) (hbusy : q.device ≠ .idle) :
    ∃ call, q.point = .wait call := by
  have hstage := h.stage
  cases hstage with
  | prepare hdevice | offered _ hdevice | completed _ _ hdevice | taken _ _ hdevice =>
    exact absurd hdevice hbusy
  | serving call _ hpoint | answered call _ _ hpoint | posted call _ _ hpoint => exact ⟨call, hpoint⟩

/-- A step of the driver, unless it only waits. -/
theorem Exchange.left_advance (h : Exchange b disk q avail used current)
    (hstep : q.advance b q.point = some q') :
    q' = q ∨ q'.left q'.point < q.left q.point := by
  cases hpoint : q.point with
  | outside =>
    rw [hpoint] at hstep
    exact absurd hstep.symm (Option.some_ne_none q')
  | describe call i =>
    rw [hpoint] at hstep
    obtain rfl := Option.some.inj hstep
    refine Or.inr ?_
    have hstage := h.stage
    cases hstage with
    | prepare _ hprepared =>
      rw [hpoint] at hprepared
      have hi := hprepared.1
      by_cases hmore : i + 1 < 3
      · simp only [if_pos hmore, BlkQueue.left]
        omega
      · simp only [if_neg hmore, BlkQueue.left]
        omega
    | offered _ _ hwait | serving _ _ hwait | answered _ _ _ hwait | posted _ _ _ hwait
    | taken _ _ _ hwait => exact absurd (hpoint.symm.trans hwait) BlkPoint.noConfusion
    | completed _ _ _ hwait =>
      rcases hwait with hwait | hwait <;>
        exact absurd (hpoint.symm.trans hwait) BlkPoint.noConfusion
  | wait call =>
    rw [hpoint, BlkQueue.advance] at hstep
    split_ifs at hstep with hnone
    · obtain rfl := Option.some.inj hstep
      exact Or.inl (by rw [← hpoint])
    · obtain rfl := Option.some.inj hstep
      refine Or.inr ?_
      change 2 < 3 + _
      omega
  | count call =>
    rw [hpoint] at hstep
    obtain rfl := Option.some.inj hstep
    refine Or.inr ?_
    have hle := left_le_four (decide (q.popped ≠ q.dev.countAvail.availIdx)) q.device
    change 3 + q.device.left (decide (q.popped ≠ q.dev.countAvail.availIdx)) < 8
    omega
  | header call | fill call | take call | status call elem =>
    rw [hpoint] at hstep
    obtain rfl := Option.some.inj hstep
    exact Or.inr (by simp [BlkQueue.left])

/-- Every step of a call in progress, the driver's or the device's, brings it nearer to its end, unless
it only waits. -/
theorem Exchange.left_step (h : Exchange b disk q avail used current) {action : BlkAction}
    (hinside : q.point ≠ .outside) (hstep : q.step b disk action = some q') :
    q' = q ∨ q'.left q'.point < q.left q.point := by
  cases action with
  | call call =>
    rw [BlkQueue.step, if_neg hinside] at hstep
    exact absurd hstep.symm (Option.some_ne_none q')
  | advance => exact h.left_advance hstep
  | pop =>
    rw [BlkQueue.step] at hstep
    split_ifs at hstep with hready
    obtain ⟨hidle, hsome⟩ := hready
    obtain rfl := Option.some.inj hstep
    obtain ⟨call, hpoint, -⟩ := h.pop hidle hsome
    refine Or.inr ?_
    simp only [hpoint, BlkQueue.left, hidle, BlkDevicePoint.left, decide_eq_true hsome, if_true]
    omega
  | serve status data len =>
    cases hdevice : q.device with
    | serving head chain =>
      rw [BlkQueue.step, hdevice] at hstep
      obtain ⟨-, hsame, r, hanswered⟩ := h.serve hdevice hstep
      obtain ⟨call, hpoint⟩ := h.wait_of_busy (hdevice ▸ BlkDevicePoint.noConfusion)
      refine Or.inr ?_
      rw [hsame, hpoint, BlkQueue.left, BlkQueue.left, hanswered, hdevice]
      exact Nat.lt_succ_self 5
    | idle | answered | posted =>
      rw [BlkQueue.step, hdevice] at hstep
      exact absurd hstep.symm (Option.some_ne_none q')
  | post =>
    cases hdevice : q.device with
    | answered r =>
      rw [BlkQueue.step, hdevice] at hstep
      obtain rfl := Option.some.inj hstep
      obtain ⟨call, hpoint⟩ := h.wait_of_busy (hdevice ▸ BlkDevicePoint.noConfusion)
      refine Or.inr ?_
      simp only [hpoint, BlkQueue.left, hdevice, BlkDevicePoint.left]
      omega
    | idle | serving | posted =>
      rw [BlkQueue.step, hdevice] at hstep
      exact absurd hstep.symm (Option.some_ne_none q')
  | complete =>
    cases hdevice : q.device with
    | posted r =>
      rw [BlkQueue.step, hdevice] at hstep
      obtain rfl := Option.some.inj hstep
      obtain ⟨call, hpoint⟩ := h.wait_of_busy (hdevice ▸ BlkDevicePoint.noConfusion)
      have h' := h.complete hdevice
      have hnone : q.dev.countUsed.availIdx = q.popped :=
        h'.indexed.available_eq_nil_iff.mp h'.available_eq
      have hoffered : decide (q.popped ≠ q.dev.countUsed.availIdx) = false :=
        decide_eq_false (not_not.mpr hnone.symm)
      refine Or.inr ?_
      simp only [hpoint, BlkQueue.left, hdevice, BlkDevicePoint.left, hoffered]
      exact Nat.lt_succ_self 3
    | idle | serving | answered =>
      rw [BlkQueue.step, hdevice] at hstep
      exact absurd hstep.symm (Option.some_ne_none q')

/-- A call in progress can take a step, or the device can take one for it. -/
theorem Exchange.exists_step (h : Exchange b disk q avail used current)
    (hinside : q.point ≠ .outside) :
    ∃ action q', q.step b disk action = some q' ∧ q'.left q'.point < q.left q.point := by
  suffices hchanges : ∃ action q', q.step b disk action = some q' ∧ q' ≠ q by
    obtain ⟨action, q', hstep, hne⟩ := hchanges
    exact ⟨action, q', hstep, (h.left_step hinside hstep).resolve_left hne⟩
  have hstage := h.stage
  cases hstage with
  | prepare hdevice hprepared =>
    cases hpoint : q.point with
    | outside => exact absurd hpoint hinside
    | header call | fill call | count call =>
      refine ⟨.advance, _, by rw [BlkQueue.step, hpoint]; rfl, fun hsame ↦ ?_⟩
      exact absurd ((congrArg BlkQueue.point hsame).trans hpoint) BlkPoint.noConfusion
    | describe call i =>
      refine ⟨.advance, _, by rw [BlkQueue.step, hpoint]; rfl, fun hsame ↦ ?_⟩
      have hpoints := (congrArg BlkQueue.point hsame).trans hpoint
      dsimp only at hpoints
      split_ifs at hpoints
      exact absurd (BlkPoint.describe.inj hpoints).2 (Nat.succ_ne_self i)
    | wait call | take call | status call elem =>
      rw [hpoint] at hprepared
      exact hprepared.elim
  | offered call hdevice hpoint hcall =>
    have hsome : q.popped ≠ q.dev.availIdx := fun hnone ↦
      absurd (h.available_eq.symm.trans (h.indexed.available_eq_nil_iff.mpr hnone.symm))
        (List.cons_ne_nil _ _)
    refine ⟨.pop, _, if_pos ⟨hdevice, hsome⟩, fun hsame ↦ ?_⟩
    exact absurd ((congrArg BlkQueue.device hsame).trans hdevice) BlkDevicePoint.noConfusion
  | serving call hdevice hpoint hapart hheader =>
    have hfails : ∃ q', q.serve disk 1 [] 0 0 (readChain b call.buf) = some q' :=
      exists_serve hheader (by decide) (fun hzero ↦ absurd hzero (by decide)) 0
    obtain ⟨q', hserve⟩ := hfails
    have hstep : q.step b disk (.serve 1 [] 0) = some q' := by
      rw [BlkQueue.step, hdevice]
      exact hserve
    obtain ⟨-, -, r, hanswered⟩ := h.serve hdevice hserve
    refine ⟨_, q', hstep, fun hsame ↦ ?_⟩
    exact absurd ((hsame ▸ hanswered).symm.trans hdevice) BlkDevicePoint.noConfusion
  | answered call r hdevice hpoint hserved =>
    refine ⟨.post, _, by rw [BlkQueue.step, hdevice], fun hsame ↦ ?_⟩
    exact absurd ((congrArg BlkQueue.device hsame).trans hdevice) BlkDevicePoint.noConfusion
  | posted call r hdevice hpoint hserved hslot =>
    refine ⟨.complete, _, by rw [BlkQueue.step, hdevice], fun hsame ↦ ?_⟩
    exact absurd ((congrArg BlkQueue.device hsame).trans hdevice) BlkDevicePoint.noConfusion
  | completed call r hdevice hpoint hserved =>
    rcases hpoint with hpoint | hpoint
    · obtain ⟨q', hstep, hpoint', -⟩ := h.advance_found hdevice hpoint hserved
      refine ⟨.advance, q', hstep, fun hsame ↦ ?_⟩
      exact absurd ((hsame ▸ hpoint').symm.trans hpoint) BlkPoint.noConfusion
    · obtain ⟨q', hstep, hpoint', -⟩ := h.advance_take hdevice hpoint hserved
      refine ⟨.advance, q', hstep, fun hsame ↦ ?_⟩
      exact absurd ((hsame ▸ hpoint').symm.trans hpoint) BlkPoint.noConfusion
  | taken call r hdevice hpoint hserved =>
    obtain ⟨q', hstep, hpoint', -⟩ := h.advance_status hdevice hpoint hserved
    refine ⟨.advance, q', hstep, fun hsame ↦ ?_⟩
    exact absurd ((hsame ▸ hpoint').symm.trans hpoint) BlkPoint.noConfusion

end Returns

/-! ### Runs -/

/-- In every run of calls, each call that has returned was answered by a request of its own, in order:
the device saw the chain of the call with its sector, the call consumed the used entry of that request,
returned its length and told whether the status is zero, and then the buffer held the sector. A call in
progress can go on, and each step that does more than wait brings it nearer to its end. -/
theorem calls_answered (b : BlkMemory) (disk : SectorDisk) (memory : ByteMemory)
    (actions : List BlkAction) (q : BlkQueue)
    (hapart : AlongRun (BlkQueue.step b disk) (fun _ action ↦ action.Apart b)
      (BlkQueue.probed memory) actions)
    (hrun : runFrom (BlkQueue.step b disk) (BlkQueue.probed memory) actions = some q) :
    (∃ done current, q.served = done ++ current ∧ current.length ≤ 1 ∧
      List.Forall₂ (BlkReturn.Answers b disk) q.returned done ∧
      (q.point = .outside → current = [])) ∧
    (q.point ≠ .outside →
      (∃ action q', q.step b disk action = some q' ∧ q'.left q'.point < q.left q.point) ∧
      ∀ action q', q.step b disk action = some q' → q' = q ∨ q'.left q'.point < q.left q.point) := by
  obtain ⟨avail, used, current, h⟩ := invariant_runFrom
    (fun h hcall hstep ↦ exchange_step h hcall hstep) ⟨[], [], [], exchange_probed b disk memory⟩
    hapart hrun
  refine ⟨?_, fun hinside ↦ ⟨h.exists_step hinside, fun _ _ hstep ↦ h.left_step hinside hstep⟩⟩
  obtain ⟨done, hdone, hanswers⟩ := h.answers
  have hstage := h.stage
  cases hstage with
  | prepare | offered | serving | answered | posted =>
    exact ⟨done, [], hdone, Nat.zero_le 1, hanswers, fun _ ↦ rfl⟩
  | completed call r hdevice hpoint =>
    refine ⟨done, [r], hdone, le_rfl, hanswers, fun houtside ↦ ?_⟩
    rcases hpoint with hpoint | hpoint <;>
      exact absurd (houtside.symm.trans hpoint) BlkPoint.noConfusion
  | taken call r hdevice hpoint =>
    exact ⟨done, [r], hdone, le_rfl, hanswers,
      fun houtside ↦ absurd (houtside.symm.trans hpoint) BlkPoint.noConfusion⟩

/-- A disk whose sectors hold their numbers. -/
def numberedDisk : SectorDisk where
  sector := fun n ↦ List.replicate 512 (UInt8.ofNat n)
  length_sector := fun _ ↦ List.length_replicate

/-- A read of sector 5. -/
def oneRead : List BlkAction :=
  .call ⟨5, 8192⟩ :: List.replicate 6 .advance ++
    [.pop, .advance, .serve 0 (List.replicate 512 5) 513, .post, .advance, .complete, .advance, .advance,
      .advance]

theorem calls_answered_one_read :
    ∃ q, runFrom (BlkQueue.step ⟨4096, 4112⟩ numberedDisk) (BlkQueue.probed fun _ ↦ 0) oneRead =
        some q ∧
      q.returned.map BlkReturn.result = [true] ∧ q.returned.map BlkReturn.len = [513] ∧
      List.Forall₂ (BlkReturn.Answers ⟨4096, 4112⟩ numberedDisk) q.returned q.served := by
  have hhistory : (runFrom (BlkQueue.step ⟨4096, 4112⟩ numberedDisk) (BlkQueue.probed fun _ ↦ 0)
      oneRead).map (fun q ↦ (q.returned.map BlkReturn.result, q.returned.map BlkReturn.len, q.point)) =
        some ([true], [513], .outside) := by decide +kernel
  have hapart : AlongRun (BlkQueue.step ⟨4096, 4112⟩ numberedDisk)
      (fun _ action ↦ action.Apart ⟨4096, 4112⟩) (BlkQueue.probed fun _ ↦ 0) oneRead :=
    alongRun_of_forall (by decide) _
  obtain ⟨q, hrun, hq⟩ := Option.map_eq_some_iff.mp hhistory
  obtain ⟨⟨done, current, hserved, -, hanswers, houtside⟩, -⟩ :=
    calls_answered ⟨4096, 4112⟩ numberedDisk (fun _ ↦ 0) oneRead q hapart hrun
  have hpoint : q.point = .outside := congrArg (fun history ↦ history.2.2) hq
  refine ⟨q, hrun, congrArg Prod.fst hq, congrArg (fun history ↦ history.2.1) hq, ?_⟩
  rw [hserved, houtside hpoint, List.append_nil]
  exact hanswers

end MegKer.Drivers
