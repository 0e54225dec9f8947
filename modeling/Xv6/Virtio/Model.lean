import Xv6.Lib.Counter
import Xv6.Lib.Run
import Xv6.Lib.Update

/-!
The disk driver of `kernel/virtio_disk.c` and the device it talks to.

Any number of threads are in `virtio_disk_rw` or `virtio_disk_intr`, all under
`disk.vdisk_lock`; the device runs beside them. A thread's step is a part of its function
between two points at which the device or another thread can be noticed: an allocation of
three descriptors, the formatting of the chain, the entry in the available ring, the new
`avail->idx`, one iteration of a waiting loop or of the loop of `virtio_disk_intr`. `sleep`
gives up the lock at once, and a woken thread is back in `acquire`; `wakeup` wakes the threads
that sleep on its channel, and `kill` wakes a thread wherever it sleeps.

The device takes the published heads in order, works on them in any order, and returns
each of them once in the used ring, after it has written 0 to the status byte that the third
descriptor points to.

`returned` and `processed` are read by no kernel function: the heads that the device has
returned and those that `virtio_disk_intr` has looked at, in order.
-/

namespace Xv6.Virtio

open Function (update)

/-- `NUM`: the number of descriptors, and of entries of each ring. -/
def NUM : ℕ := 8

def BSIZE : ℕ := 1024

def VIRTIO_BLK_T_IN : ℕ := 0

def VIRTIO_BLK_T_OUT : ℕ := 1

def VRING_DESC_F_NEXT : BitVec 16 := 1#16

def VRING_DESC_F_WRITE : BitVec 16 := 2#16

/-! ### Memory shared with the device -/

/-- The addresses that descriptors hold. -/
inductive Addr where
  | null
  /-- `&disk.ops[i]` -/
  | op (i : ℕ)
  /-- `b->data` -/
  | data (b : ℕ)
  /-- `&disk.info[i].status` -/
  | status (i : ℕ)
deriving DecidableEq

/-- `struct virtq_desc`. -/
structure Desc where
  addr : Addr
  len : ℕ
  flags : BitVec 16
  next : ℕ

def Desc.zero : Desc := ⟨.null, 0, 0#16, 0⟩

/-- `flag & VRING_DESC_F_NEXT`. -/
def Desc.hasNext (d : Desc) : Bool := d.flags &&& VRING_DESC_F_NEXT ≠ 0#16

/-- `struct virtio_blk_req`. -/
structure BlkReq where
  type : ℕ
  sector : ℕ

/-- `disk.info[i]`. -/
structure Info where
  b : Option ℕ
  status : ℕ

/-- `struct virtq_avail` and `struct virtq_used`, a head for each entry. -/
structure Virtq where
  idx : BitVec 16
  ring : ℕ → ℕ

/-- `ring[idx % NUM] = head; idx += 1`. -/
def Virtq.push (q : Virtq) (head : ℕ) : Virtq :=
  { idx := q.idx + 1#16, ring := update q.ring (Ring.cell NUM q.idx) head }

/-! ### Threads -/

/-- The arguments of `virtio_disk_rw`: the buffer `b`, its `b->blockno`, and `write`. -/
structure Request where
  b : ℕ
  blockno : ℕ
  write : Bool
deriving DecidableEq

/-- The three descriptors of a chain. -/
structure Idx where
  head : ℕ
  middle : ℕ
  tail : ℕ
deriving DecidableEq

def Idx.list (idx : Idx) : List ℕ := [idx.head, idx.middle, idx.tail]

/-- How far a call of `virtio_disk_rw` is. -/
inductive Stage where
  /-- in `acquire`, before an `alloc3_desc` -/
  | entering
  /-- about to call `alloc3_desc`, with the lock -/
  | allocating
  /-- asleep on `&disk.free[0]` -/
  | starved
  /-- about to format the chain, with the lock -/
  | formatting (idx : Idx)
  /-- about to write the head into the available ring, with the lock -/
  | storing (idx : Idx)
  /-- about to count `avail->idx` up, with the lock -/
  | counting (idx : Idx)
  /-- at the head of the loop that waits for `b->disk`, with the lock -/
  | waiting (idx : Idx)
  /-- asleep on `b` -/
  | asleep (idx : Idx)
  /-- woken, in `acquire` -/
  | woken (idx : Idx)
deriving DecidableEq

inductive Thread where
  | outside
  | rw (req : Request) (stage : Stage)
  /-- in the `acquire` of `virtio_disk_intr` -/
  | interrupted
  /-- at the head of the loop of `virtio_disk_intr`, with the lock -/
  | handling
deriving DecidableEq

inductive Chan where
  | free
  | buf (b : ℕ)
deriving DecidableEq

/-- A thread that sleeps is made runnable. -/
def Thread.rouse : Thread → Thread
  | .rw req .starved => .rw req .entering
  | .rw req (.asleep idx) => .rw req (.woken idx)
  | th => th

/-- What `wakeup(chan)` does to a thread. -/
def Thread.wake (chan : Chan) : Thread → Thread
  | .rw req .starved => if chan = .free then .rw req .entering else .rw req .starved
  | .rw req (.asleep idx) => if chan = .buf req.b then .rw req (.woken idx) else .rw req (.asleep idx)
  | th => th

structure State where
  desc : ℕ → Desc
  avail : Virtq
  used : Virtq
  free : ℕ → Bool
  usedIdx : BitVec 16
  info : ℕ → Info
  ops : ℕ → BlkReq
  /-- `b->disk` -/
  disk : ℕ → Bool
  /-- the thread that holds `b->lock` -/
  owner : ℕ → Option ℕ
  lock : Option ℕ
  thread : ℕ → Thread
  panicked : Option String
  /-- how far the device has read the available ring -/
  seen : BitVec 16
  /-- the heads it works on -/
  working : List ℕ
  returned : List ℕ
  processed : List ℕ

namespace State

def setThread (s : State) (t : ℕ) (th : Thread) : State := { s with thread := update s.thread t th }

def release (s : State) (t : ℕ) (th : Thread) : State := { s.setThread t th with lock := none }

def wakeup (s : State) (chan : Chan) : State := { s with thread := fun t => (s.thread t).wake chan }

/-! ### Descriptors -/

def allocDesc (s : State) : Option (ℕ × State) :=
  ((List.range NUM).find? s.free).map fun i => (i, { s with free := update s.free i false })

def freeDesc (s : State) (i : ℕ) : Except String State :=
  if NUM ≤ i then .error "free_desc 1"
  else if s.free i then .error "free_desc 2"
  else .ok ({ s with desc := update s.desc i .zero, free := update s.free i true }.wakeup .free)

/-- The loop of `free_chain`. No descriptor is freed twice, so `NUM` iterations are enough. -/
def freeLoop : ℕ → State → ℕ → Except String State
  | 0, _, _ => .error "free_chain"
  | fuel + 1, s, i =>
    match s.freeDesc i with
    | .error msg => .error msg
    | .ok s' => if (s.desc i).hasNext then freeLoop fuel s' (s.desc i).next else .ok s'

def freeChain (s : State) (i : ℕ) : Except String State := freeLoop NUM s i

def alloc3Desc (s : State) : Except String (State × Option Idx) :=
  match s.allocDesc with
  | none => .ok (s, none)
  | some (i₀, s₁) =>
    match s₁.allocDesc with
    | none => (s₁.freeDesc i₀).map fun s' => (s', none)
    | some (i₁, s₂) =>
      match s₂.allocDesc with
      | none => ((s₂.freeDesc i₀).bind fun s' => s'.freeDesc i₁).map fun s' => (s', none)
      | some (i₂, s₃) => .ok (s₃, some ⟨i₀, i₁, i₂⟩)

/-! ### `virtio_disk_rw` -/

/-- The result of a function that can panic. -/
def orPanic (s : State) : Except String State → State
  | .ok s' => s'
  | .error msg => { s with panicked := some msg }

/-- The three descriptors and `disk.info[idx[0]]` are written. -/
def format (s : State) (req : Request) (idx : Idx) : State :=
  let first : Desc := ⟨.op idx.head, 16, VRING_DESC_F_NEXT, idx.middle⟩
  let flags := if req.write then 0#16 else VRING_DESC_F_WRITE
  let second : Desc := ⟨.data req.b, BSIZE, flags ||| VRING_DESC_F_NEXT, idx.tail⟩
  let third : Desc := ⟨.status idx.head, 1, VRING_DESC_F_WRITE, 0⟩
  { s with
    ops := update s.ops idx.head
      ⟨if req.write then VIRTIO_BLK_T_OUT else VIRTIO_BLK_T_IN, req.blockno * (BSIZE / 512)⟩
    desc := update (update (update s.desc idx.head first) idx.middle second) idx.tail third
    disk := update s.disk req.b true
    info := update s.info idx.head ⟨some req.b, 255⟩ }

/-- One step of thread `t` in `virtio_disk_rw`; `none` while it sleeps or spins. -/
def rw (s : State) (t : ℕ) (req : Request) : Stage → Option State
  | .entering =>
    if s.lock = none then some { s.setThread t (.rw req .allocating) with lock := some t } else none
  | .allocating =>
    match s.alloc3Desc with
    | .error msg => some { s with panicked := some msg }
    | .ok (s', none) => some (s'.release t (.rw req .starved))
    | .ok (s', some idx) => some (s'.setThread t (.rw req (.formatting idx)))
  | .starved => none
  | .formatting idx => some ((s.format req idx).setThread t (.rw req (.storing idx)))
  | .storing idx =>
    some { s.setThread t (.rw req (.counting idx)) with
      avail := { s.avail with ring := update s.avail.ring (Ring.cell NUM s.avail.idx) idx.head } }
  | .counting idx =>
    some { s.setThread t (.rw req (.waiting idx)) with
      avail := { s.avail with idx := s.avail.idx + 1#16 } }
  | .waiting idx =>
    if s.disk req.b then some (s.release t (.rw req (.asleep idx)))
    else
      let s' := { s with info := update s.info idx.head { s.info idx.head with b := none } }
      some (s.orPanic ((s'.freeChain idx.head).map fun s'' => s''.release t .outside))
  | .asleep _ => none
  | .woken idx =>
    if s.lock = none then some { s.setThread t (.rw req (.waiting idx)) with lock := some t } else none

/-! ### `virtio_disk_intr` -/

/-- One iteration of the loop of `virtio_disk_intr`. -/
def handle (s : State) (t : ℕ) : State :=
  if s.usedIdx = s.used.idx then s.release t .outside
  else
    let id := s.used.ring (Ring.cell NUM s.usedIdx)
    if (s.info id).status ≠ 0 then { s with panicked := some "virtio_disk_intr status" }
    else
      match (s.info id).b with
      | none => { s with panicked := some "null b" }
      | some b =>
        { { s with disk := update s.disk b false }.wakeup (.buf b) with
          usedIdx := s.usedIdx + 1#16
          processed := s.processed ++ [id] }

def run (s : State) (t : ℕ) : Option State :=
  match s.thread t with
  | .outside => none
  | .rw req stage => s.rw t req stage
  | .interrupted =>
    if s.lock = none then some { s.setThread t .handling with lock := some t } else none
  | .handling => some (s.handle t)

/-! ### The device -/

/-- Write 0 to a status byte. -/
def writeStatus (s : State) : Addr → State
  | .status i => { s with info := update s.info i { s.info i with status := 0 } }
  | _ => s

/-- The device finishes the chain that begins at `head`. -/
def complete (s : State) (head : ℕ) : State :=
  let tail := (s.desc (s.desc head).next).next
  { s.writeStatus (s.desc tail).addr with
    working := s.working.erase head
    used := s.used.push head
    returned := s.returned ++ [head] }

end State

inductive Action where
  /-- thread `t` gets the sleep-lock of buffer `b`, which `bread` and `bwrite` hold -/
  | lockBuf (t b : ℕ)
  | unlockBuf (t b : ℕ)
  | virtioDiskRw (t : ℕ) (req : Request)
  | virtioDiskIntr (t : ℕ)
  /-- `kill` makes thread `t` runnable if it sleeps -/
  | kill (t : ℕ)
  | run (t : ℕ)
  /-- the device reads the next entry of the available ring -/
  | take
  | complete (head : ℕ)

/-- The system's step function; `none` when the action is not enabled. -/
def exec (s : State) : Action → Option State
  | .lockBuf t b =>
    if s.thread t = .outside ∧ s.owner b = none then
      some { s with owner := update s.owner b (some t) }
    else none
  | .unlockBuf t b =>
    if s.thread t = .outside ∧ s.owner b = some t then some { s with owner := update s.owner b none }
    else none
  | .virtioDiskRw t req =>
    if s.thread t = .outside ∧ s.owner req.b = some t then some (s.setThread t (.rw req .entering))
    else none
  | .virtioDiskIntr t => if s.thread t = .outside then some (s.setThread t .interrupted) else none
  | .kill t => some (s.setThread t (s.thread t).rouse)
  | .run t => if s.panicked = none then s.run t else none
  | .take =>
    if s.seen ≠ s.avail.idx then
      some { s with
        working := s.working ++ [s.avail.ring (Ring.cell NUM s.seen)]
        seen := s.seen + 1#16 }
    else none
  | .complete head => if head ∈ s.working then some (s.complete head) else none

/-- After `virtio_disk_init`. -/
structure Init (s : State) : Prop where
  avail : s.avail.idx = 0#16
  used : s.used.idx = 0#16
  usedIdx : s.usedIdx = 0#16
  free : ∀ i, i < NUM → s.free i = true
  disk : ∀ b, s.disk b = false
  lock : s.lock = none
  thread : ∀ t, s.thread t = .outside
  panicked : s.panicked = none
  seen : s.seen = 0#16
  working : s.working = []
  returned : s.returned = []
  processed : s.processed = []

end Xv6.Virtio
