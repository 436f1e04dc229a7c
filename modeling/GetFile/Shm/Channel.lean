import GetFile.Cache.PerformTask
import GetFile.Steque.Items

/-!
# Shared memory: the segments and their names

The segments of `shm_channel.c`, each with a shared-memory object and two message queues, as the
proxy and the cache create them and as the proxy cleans them up. The names that the system knows
are two sets, and the descriptors of the message queues are numbered in the order of the calls of
`mq_open`.
-/

namespace GetFile.Shm

open CString

/-- The size of the array for a printed index. -/
def maxSeg : ℕ := 10

def shmPath : List UInt8 := ascii "/segment_sebdel"

def proxyToCache : List UInt8 := ascii "/proxy-to-cache"

def cacheToProxy : List UInt8 := ascii "/cache-to-proxy"

/-- The fields of `segment_item` that the functions here use. -/
structure SegmentItem where
  segmentIndex : ℤ
  segmentId : List UInt8
  mqDataTx : ℕ
  mqDataRx : ℕ
  mqDataTxStr : List UInt8
  mqDataRxStr : List UInt8
  deriving DecidableEq, Repr

/-! ### The names and descriptors of the system -/

/-- The names of the shared-memory objects and of the message queues, how many descriptors of
message queues have been opened, and those closed so far. -/
structure Ipc where
  shm : Finset (List UInt8)
  mqs : Finset (List UInt8)
  opened : ℕ
  closed : List ℕ
  deriving DecidableEq

namespace Ipc

/-- `shm_map_segment`, which creates the object if there is none. -/
def shmMapSegment (name : List UInt8) (s : Ipc) : Ipc :=
  { s with shm := insert name s.shm }

def shmUnlink (name : List UInt8) (s : Ipc) : Ipc :=
  { s with shm := s.shm.erase name }

/-- `create_message_queue`, which creates the queue if there is none and opens it. -/
def createMessageQueue (name : List UInt8) (s : Ipc) : ℕ × Ipc :=
  (s.opened, { s with mqs := insert name s.mqs, opened := s.opened + 1 })

def mqUnlink (name : List UInt8) (s : Ipc) : Ipc :=
  { s with mqs := s.mqs.erase name }

def mqClose (mqd : ℕ) (s : Ipc) : Ipc :=
  { s with closed := s.closed ++ [mqd] }

end Ipc

/-! ### Creating the segments -/

/-- `shm_create_id`. There is no result when the printed index does not fit into its array or the
name not into the memory reserved for it. -/
def shmCreateId (pre : List UInt8) (index : ℤ) : Option (List UInt8) :=
  let indexStr := Cache.signedDecimal index
  if indexStr.length + 1 ≤ maxSeg ∧ pre.length ≤ shmPath.length then some (pre ++ indexStr)
  else none

/-- One round of the loop of `shm_create_segments`. -/
def shmCreateSegment (proxy : Bool) (i : ℕ) (s : Ipc) : Option (SegmentItem × Ipc) := do
  let segmentId ← shmCreateId shmPath i
  let s := s.shmMapSegment segmentId
  let txPrefix := if proxy then proxyToCache else cacheToProxy
  let rxPrefix := if proxy then cacheToProxy else proxyToCache
  let mqTxStr ← shmCreateId txPrefix i
  let mqRxStr ← shmCreateId rxPrefix i
  let (mqTx, s) := s.createMessageQueue mqTxStr
  let (mqRx, s) := s.createMessageQueue mqRxStr
  return ({ segmentIndex := i, segmentId := segmentId, mqDataTx := mqTx, mqDataRx := mqRx,
            mqDataTxStr := mqTxStr, mqDataRxStr := mqRxStr }, s)

/-- `shm_create_segments`, with the queue of the segments that it fills. -/
def shmCreateSegments (numSegments : ℤ) (proxy : Bool) (s : Ipc) :
    Option (Steque SegmentItem × Ipc) :=
  (List.range numSegments.toNat).foldlM
    (fun x (i : ℕ) => (shmCreateSegment proxy i x.2).map fun y => (x.1.push y.1, y.2)) (Steque.init, s)

/-! ### Cleaning up -/

/-- The first loop of `shm_clean_segments`. -/
def unlinkNames (size : ℕ) (s : Ipc) : Option Ipc :=
  (List.range size).foldlM
    (fun s (i : ℕ) => do
      let mqTxStr ← shmCreateId proxyToCache i
      let mqRxStr ← shmCreateId cacheToProxy i
      return (s.shmUnlink mqTxStr).shmUnlink mqRxStr) s

/-- What the second loop of `shm_clean_segments` does with an item. -/
def cleanItem (item : SegmentItem) (s : Ipc) : Ipc :=
  (((s.mqUnlink item.mqDataTxStr).mqUnlink item.mqDataRxStr).mqClose item.mqDataTx).mqClose
    item.mqDataRx

/-- The second loop of `shm_clean_segments` from the index `i` on, within the given number of
rounds. -/
def cleanItems : ℕ → ℕ → Steque SegmentItem → Ipc → Option (Steque SegmentItem × Ipc)
  | 0, i, queue, s => if i < queue.size then none else some (queue, s)
  | rounds + 1, i, queue, s =>
    if i < queue.size then
      queue.front.bind fun item => cleanItems rounds (i + 1) queue.cycle (cleanItem item s)
    else some (queue, s)

/-- `shm_clean_segments`. -/
def shmCleanSegments (queue : Steque SegmentItem) (s : Ipc) :
    Option (Steque SegmentItem × Ipc) :=
  (unlinkNames queue.size s).bind fun s => cleanItems queue.size 0 queue s

end GetFile.Shm
