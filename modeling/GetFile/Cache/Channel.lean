import GetFile.CString.Decimal
import Mathlib.Data.Int.Bitwise

/-!
# Proxy and cache: packets, message queues and segments

The `thread_packet` that the proxy and the cache exchange, the POSIX message queues it travels
through, and the shared-memory segments. Each segment comes with one queue in each direction,
and one control queue leads from the proxy to the cache.
-/

namespace GetFile.Cache

open CString

/-- The bytes of `requested_file` in a packet. -/
def maxRequestLen : ℕ := 128

/-- The messages that a queue made by `create_message_queue` holds at most. -/
def mqMaxmsg : ℕ := 10

/-- The `thread_packet`. -/
structure ThreadPacket where
  requestedFile : List UInt8
  fileSize : ℤ
  chunkSize : ℤ
  segmentSize : ℤ
  cacheHit : ℤ
  segmentIndex : ℤ
  deriving DecidableEq, Repr

/-- A copy of the packet, and the thread of the cache that last filled it in. The source has no
such field and no step depends on it: it only records whose packet a copy is. -/
structure Packet extends ThreadPacket where
  worker : ℕ
  deriving DecidableEq, Repr

/-- The bytes of an `int` in memory. -/
def intBytes (z : ℤ) : List UInt8 :=
  (List.range 4).map fun i => (z / 256 ^ i % 256).toNat.toUInt8

/-- The string that begins at `requested_file` in a packet. It runs on into the fields behind
the array when the array holds no terminator. -/
def ThreadPacket.key (pkt : ThreadPacket) : List UInt8 :=
  (pkt.requestedFile ++ intBytes pkt.fileSize ++ intBytes pkt.chunkSize
    ++ intBytes pkt.segmentSize ++ intBytes pkt.cacheHit ++ intBytes pkt.segmentIndex).takeWhile
      fun c => c != 0

/-- The messages in a queue, the oldest first. -/
abbrev Mq := List Packet

/-- `tx_mq`, which blocks while the queue is full. -/
def txMq (mq : Mq) (pkt : Packet) : Option Mq :=
  if mq.length < mqMaxmsg then some (mq ++ [pkt]) else none

/-- `rx_mq`, which blocks while the queue is empty. -/
def rxMq : Mq → Option (Packet × Mq)
  | [] => none
  | pkt :: mq => some (pkt, mq)

/-- The memory of a segment and its queues: `cacheToProxy` is `mq_data_tx` of the cache and
`mq_data_rx` of the proxy, and `proxyToCache` the other way round. -/
structure Segment (size : ℕ) where
  cacheToProxy : Mq
  proxyToCache : Mq
  memory : Buffer size

/-- What the two processes share, and whether a failed `ASSERT` has ended the cache. -/
structure Channels (n size : ℕ) where
  ctrl : Mq
  segments : Fin n → Segment size
  exited : Bool

variable {n size : ℕ}

/-- Replace one segment. -/
def Channels.set (c : Channels n size) (i : Fin n) (s : Segment size) : Channels n size :=
  { c with segments := Function.update c.segments i s }

@[simp]
theorem Channels.set_self (c : Channels n size) (i : Fin n) (s : Segment size) :
  (c.set i s).segments i = s
  := by
  unfold Channels.set
  apply Function.update_self

theorem Channels.set_other (c : Channels n size) {i j : Fin n} (s : Segment size) (h : j ≠ i) :
  (c.set i s).segments j = c.segments j
  := by
  unfold Channels.set
  apply Function.update_of_ne h

/-- The queues are empty and the segments cleared. -/
def Channels.init : Channels n size where
  ctrl := []
  segments _ := { cacheToProxy := [], proxyToCache := [], memory := Buffer.zero size }
  exited := false

/-- A message that is sent is the last of the queue. -/
theorem txMq_eq_some {mq mq' : Mq} {pkt : Packet} (h : txMq mq pkt = some mq') :
  mq' = mq ++ [pkt]
  := by
  unfold txMq at h
  by_cases hl : mq.length < mqMaxmsg
  · rw [if_pos hl, Option.some.injEq] at h
    exact h.symm
  · rw [if_neg hl] at h
    cases h

/-- A message that is received is the first of the queue. -/
theorem rxMq_eq_some {mq mq' : Mq} {pkt : Packet} (h : rxMq mq = some (pkt, mq')) :
  mq = pkt :: mq'
  := by
  cases mq with
  | nil => cases h
  | cons p rest =>
      cases h
      rfl

end GetFile.Cache
