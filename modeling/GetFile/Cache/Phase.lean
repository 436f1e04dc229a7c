import GetFile.Cache.HandleRequest
import GetFile.Cache.PerformTask
import Mathlib.Algebra.BigOperators.Group.List.Basic

/-!
# Proxy and cache in lock step

When the cache has found the file, the proxy thread and the worker that serve one request go
through the file chunk by chunk. `Phase` lists the states that the two can be in together with
the queues and the memory of the segment; it is kept by every step of either of them
(`Phase.proxy_step`, `Phase.worker_step`).
-/

namespace GetFile.Cache

open CString

variable {n size : ℕ}

/-- The packet with which the cache answers a request whose file it has found. -/
def Packet.answer (pkt : Packet) (num size : ℕ) (file : List UInt8) : Packet :=
  { pkt.received num size with cacheHit := 1, fileSize := file.length }

/-- The data packet for a chunk of `m` bytes. -/
def Packet.ofChunk (base : Packet) (m : ℕ) : Packet :=
  { base with chunkSize := m }

/-- The packet `base` answers a request for the file, which is not empty, with segments of
`size` bytes. -/
structure Answers (size num : ℕ) (file : List UInt8) (base : Packet) : Prop where
  size_pos : 0 < size
  pos : 0 < file.length
  fileSize : base.fileSize = file.length
  cacheHit : base.cacheHit ≠ 0
  segmentSize : base.segmentSize = size
  worker : base.worker = num

/-- The proxy has announced the file and given its first `k` bytes to `gfs_send` in `c`
chunks. -/
structure Given (base : Packet) (file : List UInt8) (k c : ℕ) (r : HandleRequest) :
    Prop where
  header : r.header = some (.ok, sizeT base.fileSize)
  total : r.totalBytesRx = k
  sent : r.sent = file.take k
  chunks : r.chunks.length = c
  ret : 0 < k → r.retValue = some k

/-- The proxy has not received anything for the request. -/
structure Unanswered (r : HandleRequest) : Prop where
  pc : r.pc = .filesize
  header : r.header = none
  total : r.totalBytesRx = 0
  chunks : r.chunks = []

/-- The proxy has given away `k` bytes in `c` chunks and still has to take the messages `q` out
of the queue before the next data packet. -/
inductive Front (base : Packet) (file : List UInt8) :
    ℕ → ℕ → HandleRequest → Mq → Prop where
  | filesize {r : HandleRequest} (unanswered : Unanswered r) :
      Front base file 0 0 r [base]
  | header {r : HandleRequest} (pc : r.pc = .header) (thrPkt : r.thrPkt = base)
      (header : r.header = none) (total : r.totalBytesRx = 0) (chunks : r.chunks = []) :
      Front base file 0 0 r []
  | data {r : HandleRequest} {k c : ℕ} (pc : r.pc = .data) (given : Given base file k c r) :
      Front base file k c r []

/-- The worker has filled `k` bytes of the file into data packets, sent `c` of them, and got
`a` back. -/
structure Filled (size : ℕ) (base : Packet) (file : List UInt8) (k c a : ℕ)
    (w : Task n) : Prop where
  file : w.file = file
  total : w.totalBytesRx = k
  thrPkt : { w.thrPkt with chunkSize := base.chunkSize } = base
  sent : w.sent.length = c
  acked : w.acked = a
  sizes : ∀ pkt ∈ w.sent, 1 ≤ pkt.chunkSize ∧ pkt.chunkSize ≤ size
  sum : (w.sent.map fun pkt => pkt.chunkSize).sum = k

/-- The segment holds the `m` bytes of the file from byte `k` on. -/
def Holds (file : List UInt8) (k m : ℕ) (seg : Segment size) : Prop :=
  seg.memory.slice 0 m = (file.drop k).take m

/-- The bounds of a chunk of `m` bytes from byte `k` on. -/
structure Chunk (size : ℕ) (file : List UInt8) (k m : ℕ) : Prop where
  pos : 0 < m
  le_size : m ≤ size
  le_file : k + m ≤ file.length

/-- The states of the proxy, the worker and the segment while they serve one request. -/
inductive Phase (base : Packet) (file : List UInt8) (r : HandleRequest) (w : Task n)
    (seg : Segment size) : Prop where
  | hit (pc : w.pc = .hit) (filled : Filled size base file 0 0 0 w) (thrPkt : w.thrPkt = base)
      (unanswered : Unanswered r)
      (toProxy : seg.cacheToProxy = []) (toCache : seg.proxyToCache = [])
  | pread (k c : ℕ) (q : Mq) (pc : w.pc = .pread ∨ w.pc = .failed) (more : k < file.length)
      (filled : Filled size base file k c c w) (front : Front base file k c r q)
      (toProxy : seg.cacheToProxy = q) (toCache : seg.proxyToCache = [])
  | sendData (k c m : ℕ) (q : Mq) (pc : w.pc = .sendData) (chunk : Chunk size file k m)
      (filled : Filled size base file k c c w) (thrPkt : w.thrPkt = base.ofChunk m)
      (holds : Holds file k m seg) (front : Front base file k c r q)
      (toProxy : seg.cacheToProxy = q) (toCache : seg.proxyToCache = [])
  | queued (k c m : ℕ) (q : Mq) (pc : w.pc = .ack) (chunk : Chunk size file k m)
      (filled : Filled size base file (k + m) (c + 1) c w)
      (holds : Holds file k m seg) (front : Front base file k c r q)
      (toProxy : seg.cacheToProxy = q ++ [base.ofChunk m]) (toCache : seg.proxyToCache = [])
  | taken (k c m : ℕ) (pc : w.pc = .ack) (chunk : Chunk size file k m)
      (filled : Filled size base file (k + m) (c + 1) c w)
      (holds : Holds file k m seg) (rpc : r.pc = .gfsSend) (thrPkt : r.thrPkt = base.ofChunk m)
      (given : Given base file k c r)
      (toProxy : seg.cacheToProxy = []) (toCache : seg.proxyToCache = [])
  | given (k c m : ℕ) (pc : w.pc = .ack) (chunk : Chunk size file k m)
      (filled : Filled size base file (k + m) (c + 1) c w)
      (rpc : r.pc = .ack) (thrPkt : r.thrPkt = base.ofChunk m)
      (given : Given base file (k + m) (c + 1) r)
      (toProxy : seg.cacheToProxy = []) (toCache : seg.proxyToCache = [])
  | acked (k c m : ℕ) (pc : w.pc = .ack) (chunk : Chunk size file k m)
      (filled : Filled size base file (k + m) (c + 1) c w)
      (rpc : r.pc = if k + m < file.length then .data else .done)
      (given : Given base file (k + m) (c + 1) r)
      (toProxy : seg.cacheToProxy = []) (toCache : seg.proxyToCache = [base.ofChunk m])
  | finished (c : ℕ) (pc : w.pc = .wait) (filled : Filled size base file file.length c c w)
      (rpc : r.pc = .done) (given : Given base file file.length c r)
      (toProxy : seg.cacheToProxy = []) (toCache : seg.proxyToCache = [])

/-! ### The steps of the proxy -/

/-- In front of the next data packet the proxy takes the answer and announces the file, and
then waits for the packet. -/
theorem Front.step {num k c : ℕ} {base : Packet} {file : List UInt8}
    {r r' : HandleRequest} {q rest : Mq} {seg seg' : Segment size}
    (ha : Answers size num file base) (hf : Front base file k c r q)
    (hq : seg.cacheToProxy = q ++ rest) (h : HandleRequest.Step seg r seg' r') :
  (∃ q', Front base file k c r' q' ∧ seg' = { seg with cacheToProxy := q' ++ rest }) ∨
    ∃ pkt rest', rest = pkt :: rest' ∧ Given base file k c r ∧
      seg' = { seg with cacheToProxy := rest' } ∧ r' = { r with pc := .gfsSend, thrPkt := pkt }
  := by
  cases hf with
  | filesize hu =>
      obtain ⟨hpc, hheader, htotal, hchunks⟩ := hu
      cases h with
      | filesize pkt rest' pc first =>
          rw [hq, List.singleton_append] at first
          cases first
          exact .inl ⟨[], .header rfl rfl hheader htotal hchunks, rfl⟩
      | hit pc | miss _ pc | data _ _ pc | gfsSend pc | ack pc => simp [hpc] at pc
  | header hpc hthr _ htotal hchunks =>
      cases h with
      | hit pc hit =>
          left
          refine ⟨[], .data ?_ ?_, by rw [← hq]⟩
          · have hpos := ha.pos
            simp only [HandleRequest.loop, hthr, htotal, ha.fileSize]
            rw [if_pos (by omega)]
          · constructor
            · rw [← hthr]
              rfl
            · exact htotal
            · simp [HandleRequest.sent, HandleRequest.loop, hchunks]
            · simp [HandleRequest.loop, hchunks]
            · omega
      | miss _ pc miss =>
          rw [hthr] at miss
          exact absurd miss ha.cacheHit
      | filesize _ _ pc | data _ _ pc | gfsSend pc | ack pc => simp [hpc] at pc
  | data hpc hg =>
      cases h with
      | data pkt rest' pc first =>
          rw [hq, List.nil_append] at first
          exact .inr ⟨pkt, rest', first, hg, rfl, rfl⟩
      | filesize _ _ pc | hit pc | miss _ pc | gfsSend pc | ack pc => simp [hpc] at pc

/-- The proxy waits for the answer while the queue is empty. -/
theorem Unanswered.blocked {r r' : HandleRequest} {seg seg' : Segment size}
    (hu : Unanswered r) (hq : seg.cacheToProxy = []) :
  ¬ HandleRequest.Step seg r seg' r'
  := by
  intro h
  cases h with
  | filesize _ _ _ first =>
      rw [hq] at first
      cases first
  | hit hpc | miss _ hpc | data _ _ hpc | gfsSend hpc | ack hpc => simp [hu.pc] at hpc

/-- Giving away the chunk that the segment holds. -/
theorem Given.gfsSend {k c m : ℕ} {base : Packet} {file : List UInt8} {r : HandleRequest}
    {seg : Segment size} (hg : Given base file k c r) (hthr : r.thrPkt = base.ofChunk m)
    (hholds : Holds file k m seg) :
  Given base file (k + m) (c + 1)
    { r with
      pc := .ack
      totalBytesRx := r.totalBytesRx + r.thrPkt.chunkSize
      retValue := some (r.totalBytesRx + r.thrPkt.chunkSize)
      chunks := r.chunks ++ [seg.memory.slice 0 r.thrPkt.chunkSize.toNat] }
  where
  header := hg.header
  total := by simp [hg.total, hthr, Packet.ofChunk]
  sent := by
    have hsent := hg.sent
    simp only [HandleRequest.sent] at hsent ⊢
    rw [List.flatten_append, hsent, hthr, List.take_add]
    simp only [Packet.ofChunk, Int.toNat_natCast, List.flatten_singleton]
    rw [hholds]
  chunks := by simp [hg.chunks]
  ret _ := by simp [hg.total, hthr, Packet.ofChunk]

/-- The bytes given away do not depend on the next call of the proxy. -/
theorem Given.loop {k c : ℕ} {base : Packet} {file : List UInt8} {r : HandleRequest}
    (hg : Given base file k c r) :
  Given base file k c r.loop
  := ⟨hg.header, hg.total, hg.sent, hg.chunks, hg.ret⟩

/-- Every step of the proxy keeps the phase. -/
theorem Phase.proxy_step {num : ℕ} {base : Packet} {file : List UInt8}
    {r r' : HandleRequest} {w : Task n} {seg seg' : Segment size}
    (ha : Answers size num file base) (hp : Phase base file r w seg)
    (h : HandleRequest.Step seg r seg' r') :
  Phase base file r' w seg'
  := by
  cases hp with
  | hit pc filled thrPkt unanswered toProxy toCache =>
      exact absurd h (unanswered.blocked toProxy)
  | pread k c q pc more filled front toProxy toCache =>
      have hq : seg.cacheToProxy = q ++ [] := by rw [toProxy, List.append_nil]
      obtain ⟨q', hf, rfl⟩ | ⟨pkt, rest, hrest, -⟩ := front.step ha hq h
      · exact .pread k c q' pc more filled hf (List.append_nil q') toCache
      · cases hrest
  | sendData k c m q pc chunk filled thrPkt holds front toProxy toCache =>
      have hq : seg.cacheToProxy = q ++ [] := by rw [toProxy, List.append_nil]
      obtain ⟨q', hf, rfl⟩ | ⟨pkt, rest, hrest, -⟩ := front.step ha hq h
      · exact .sendData k c m q' pc chunk filled thrPkt holds hf (List.append_nil q') toCache
      · cases hrest
  | queued k c m q pc chunk filled holds front toProxy toCache =>
      obtain ⟨q', hf, rfl⟩ | ⟨pkt, rest, hrest, hg, rfl, rfl⟩ := front.step ha toProxy h
      · exact .queued k c m q' pc chunk filled holds hf rfl toCache
      · cases hrest
        exact .taken k c m pc chunk filled holds rfl rfl
          ⟨hg.header, hg.total, hg.sent, hg.chunks, hg.ret⟩ rfl toCache
  | taken k c m pc chunk filled holds rpc thrPkt given toProxy toCache =>
      cases h with
      | gfsSend =>
          exact .given k c m pc chunk filled rfl thrPkt (given.gfsSend thrPkt holds)
            toProxy toCache
      | filesize _ _ hpc | hit hpc | miss _ hpc | data _ _ hpc | ack hpc => simp [rpc] at hpc
  | given k c m pc chunk filled rpc thrPkt given toProxy toCache =>
      cases h with
      | ack =>
          refine .acked k c m pc chunk filled ?_ given.loop toProxy ?_
          · have hlt : ((k + m : ℕ) : ℤ) < file.length ↔ k + m < file.length := Nat.cast_lt
            simp only [HandleRequest.loop, given.total, thrPkt, Packet.ofChunk, ha.fileSize,
              hlt]
          · simp [toCache, thrPkt]
      | filesize _ _ hpc | hit hpc | miss _ hpc | data _ _ hpc | gfsSend hpc => simp [rpc] at hpc
  | acked k c m pc chunk filled rpc given toProxy toCache =>
      by_cases hlt : k + m < file.length
      · rw [if_pos hlt] at rpc
        cases h with
        | data pkt rest _ first =>
            rw [toProxy] at first
            cases first
        | filesize _ _ hpc | hit hpc | miss _ hpc | gfsSend hpc | ack hpc => simp [rpc] at hpc
      · rw [if_neg hlt] at rpc
        exact absurd rpc h.pc.2
  | finished c pc filled rpc given toProxy toCache => exact absurd rpc h.pc.2

/-- The proxy has sent its request. -/
theorem Phase.proxy_pc {base : Packet} {file : List UInt8} {r : HandleRequest}
    {w : Task n} {seg : Segment size} (hp : Phase base file r w seg) :
  r.pc ≠ .send
  := by
  have hfront : ∀ {k c q}, Front base file k c r q → r.pc ≠ .send := by
    intro k c q hf
    cases hf with
    | filesize unanswered => simp [unanswered.pc]
    | header pc | data pc => simp [pc]
  cases hp with
  | hit _ _ _ unanswered => simp [unanswered.pc]
  | pread _ _ _ _ _ _ front => exact hfront front
  | sendData _ _ _ _ _ _ _ _ _ front => exact hfront front
  | queued _ _ _ _ _ _ _ _ front => exact hfront front
  | taken _ _ _ _ _ _ _ rpc => simp [rpc]
  | given _ _ _ _ _ _ rpc => simp [rpc]
  | acked k _ m _ _ _ rpc =>
      rw [rpc]
      by_cases hlt : k + m < file.length
      · simp [hlt]
      · simp [hlt]
  | finished _ _ _ rpc => simp [rpc]

/-- The worker has looked the file up. -/
theorem Phase.worker_pc {base : Packet} {file : List UInt8} {r : HandleRequest}
    {w : Task n} {seg : Segment size} (hp : Phase base file r w seg) :
  w.pc ≠ .lookup
  := by
  cases hp with
  | pread _ _ _ pc =>
      obtain pc | pc := pc
      · simp [pc]
      · simp [pc]
  | hit pc | sendData _ _ _ _ pc | queued _ _ _ _ pc | taken _ _ _ pc | given _ _ _ pc
  | acked _ _ _ pc | finished _ pc => simp [pc]

/-! ### The steps of the worker -/

/-- The packet of the worker differs from the answer in the size of the chunk only. -/
theorem Filled.thrPkt_eq {k c a : ℕ} {base : Packet} {file : List UInt8} {w : Task n}
    (hf : Filled size base file k c a w) :
  w.thrPkt.fileSize = base.fileSize ∧ w.thrPkt.segmentSize = base.segmentSize ∧
    ∀ m num, base.worker = num →
      { w.thrPkt with chunkSize := m, worker := num } = { base with chunkSize := m }
  := by
  have h := hf.thrPkt
  rw [← h]
  refine ⟨rfl, rfl, ?_⟩
  intro m num hnum
  rw [← hnum]

/-- The worker asks for at most the rest of the file and at most a segment. -/
theorem Filled.chunk {k c a j num : ℕ} {base : Packet} {file : List UInt8} {w : Task n}
    (ha : Answers size num file base) (hf : Filled size base file k c a w) (hpos : 0 < j)
    (hj : (j : ℤ) ≤ w.chunk) :
  Chunk size file k j
  := by
  obtain ⟨hfs, hss, -⟩ := hf.thrPkt_eq
  rw [ha.fileSize] at hfs
  rw [ha.segmentSize] at hss
  unfold Task.chunk at hj
  simp only [hfs, hss, hf.total] at hj
  by_cases hlt : (file.length : ℤ) - k < size
  · rw [if_pos hlt] at hj
    exact ⟨hpos, by omega, by omega⟩
  · rw [if_neg hlt] at hj
    exact ⟨hpos, by omega, by omega⟩

/-- What the worker has filled in does not depend on its next call. -/
theorem Filled.loop {k c a : ℕ} {base : Packet} {file : List UInt8} {w : Task n}
    (hf : Filled size base file k c a w) :
  Filled size base file k c a w.loop
  := ⟨hf.file, hf.total, hf.thrPkt, hf.sent, hf.acked, hf.sizes, hf.sum⟩

/-- The loop of the worker goes on while the file is not complete. -/
theorem Filled.loop_pc {k c a num : ℕ} {base : Packet} {file : List UInt8} {w : Task n}
    (ha : Answers size num file base) (hf : Filled size base file k c a w) :
  w.loop.pc = if k < file.length then .pread else .wait
  := by
  obtain ⟨hfs, -⟩ := hf.thrPkt_eq
  have hlt : (k : ℤ) < file.length ↔ k < file.length := Nat.cast_lt
  simp only [Task.loop, hf.total, hfs, ha.fileSize, hlt]

/-- Filling the next chunk into the packet. -/
theorem Filled.pread {k c a j num : ℕ} {base : Packet} {file : List UInt8} {w : Task n}
    (ha : Answers size num file base) (hf : Filled size base file k c a w) :
  Filled size base file k c a
    { w with pc := .sendData, thrPkt := { w.thrPkt with chunkSize := j, worker := num } }
  where
  file := hf.file
  total := hf.total
  thrPkt := hf.thrPkt_eq.2.2 base.chunkSize num ha.worker
  sent := hf.sent
  acked := hf.acked
  sizes := hf.sizes
  sum := hf.sum

/-- A chunk that has been read into the segment stands there. -/
theorem Chunk.slice_store {k m : ℕ} {file : List UInt8} (h : Chunk size file k m)
    (memory : Buffer size) :
  (memory.store 0 ((file.drop k).take m)).slice 0 m = (file.drop k).take m
  := by
  have hle := h.le_size
  have hlf := h.le_file
  have hlen : ((file.drop k).take m).length = m := by
    simp only [List.length_take, List.length_drop]
    omega
  have hslice : (memory.store 0 ((file.drop k).take m)).slice 0 ((file.drop k).take m).length =
      (file.drop k).take m :=
    Buffer.slice_store_self (by omega)
  rw [hlen] at hslice
  exact hslice

/-- Sending the packet of a chunk. -/
theorem Filled.sendData {k c a m : ℕ} {base : Packet} {file : List UInt8} {w : Task n}
    (hf : Filled size base file k c a w) (hthr : w.thrPkt = base.ofChunk m)
    (hchunk : Chunk size file k m) :
  Filled size base file (k + m) (c + 1) a
    { w with
      pc := .ack
      totalBytesRx := w.totalBytesRx + w.thrPkt.chunkSize
      sent := w.sent ++ [w.thrPkt] }
  where
  file := hf.file
  total := by simp [hf.total, hthr, Packet.ofChunk]
  thrPkt := hf.thrPkt
  sent := by simp [hf.sent]
  acked := hf.acked
  sizes := by
    intro pkt hpkt
    obtain hmem | hlast := List.mem_append.mp hpkt
    · exact hf.sizes pkt hmem
    · rw [List.mem_singleton.mp hlast, hthr]
      have hpos := hchunk.pos
      have hle := hchunk.le_size
      simp only [Packet.ofChunk]
      omega
  sum := by simp [hf.sum, hthr, Packet.ofChunk]

/-- Getting a packet back. -/
theorem Filled.ack {k c a m : ℕ} {base : Packet} {file : List UInt8} {w : Task n}
    (hf : Filled size base file k c a w) :
  Filled size base file k c (a + 1)
    { w with thrPkt := base.ofChunk m, acked := w.acked + 1 }
  where
  file := hf.file
  total := hf.total
  thrPkt := rfl
  sent := hf.sent
  acked := by simp [hf.acked]
  sizes := hf.sizes
  sum := hf.sum

/-- Every step of the worker keeps the phase. -/
theorem Phase.worker_step {num : ℕ} {base : Packet} {file : List UInt8}
    {r : HandleRequest} {w w' : Task n} {seg seg' : Segment size}
    (ha : Answers size num file base) (hp : Phase base file r w seg)
    (h : Task.Step num seg w seg' w') :
  Phase base file r w' seg'
  := by
  cases hp with
  | hit pc filled thrPkt unanswered toProxy toCache =>
      cases h with
      | hit =>
          have hpc := filled.loop_pc ha
          rw [if_pos ha.pos] at hpc
          refine .pread 0 0 [base] (.inl hpc) ha.pos filled.loop (.filesize unanswered) ?_ toCache
          simp [toProxy, thrPkt]
      | miss hpc | fail hpc | pread _ hpc | sendData hpc | ack _ _ hpc => simp [pc] at hpc
  | pread k c q pc more filled front toProxy toCache =>
      cases h with
      | fail =>
          have hfilled : Filled size base file k c c { w with pc := .failed } :=
            ⟨filled.file, filled.total, filled.thrPkt, filled.sent, filled.acked, filled.sizes,
              filled.sum⟩
          exact .pread k c q (.inr rfl) more hfilled front toProxy toCache
      | pread j _ pos chunk hfile =>
          have hchunk := filled.chunk ha pos chunk
          refine .sendData k c j q rfl hchunk (filled.pread ha) ?_ ?_ front toProxy toCache
          · exact filled.thrPkt_eq.2.2 j num ha.worker
          · simp only [Holds, filled.file, filled.total, Int.toNat_natCast]
            apply hchunk.slice_store
      | miss hpc | hit hpc | sendData hpc | ack _ _ hpc => simp [hpc] at pc
  | sendData k c m q pc chunk filled thrPkt holds front toProxy toCache =>
      cases h with
      | sendData =>
          refine .queued k c m q rfl chunk (filled.sendData thrPkt chunk) holds front ?_ toCache
          simp [toProxy, thrPkt]
      | miss hpc | hit hpc | fail hpc | pread _ hpc | ack _ _ hpc => simp [pc] at hpc
  | queued k c m q pc chunk filled holds front toProxy toCache
  | taken k c m pc chunk filled holds rpc thrPkt given toProxy toCache
  | given k c m pc chunk filled rpc thrPkt given toProxy toCache =>
      -- the worker waits for a packet that the proxy has not sent yet
      cases h with
      | ack pkt rest _ first =>
          rw [toCache] at first
          cases first
      | miss hpc | hit hpc | fail hpc | pread _ hpc | sendData hpc => simp [pc] at hpc
  | acked k c m pc chunk filled rpc given toProxy toCache =>
      cases h with
      | ack pkt rest _ first =>
          rw [toCache] at first
          cases first
          have hfilled := filled.ack (m := m)
          have hpc := hfilled.loop_pc ha
          by_cases hlt : k + m < file.length
          · rw [if_pos hlt] at hpc rpc
            exact .pread (k + m) (c + 1) [] (.inl hpc) hlt hfilled.loop (.data rpc given) toProxy rfl
          · rw [if_neg hlt] at hpc rpc
            have heq : k + m = file.length := by
              have hle := chunk.le_file
              omega
            rw [heq] at hfilled given
            exact .finished (c + 1) hpc hfilled.loop rpc given toProxy rfl
      | miss hpc | hit hpc | fail hpc | pread _ hpc | sendData hpc => simp [pc] at hpc
  | finished c pc filled rpc given toProxy toCache =>
      cases h with
      | miss hpc | hit hpc | fail hpc | pread _ hpc | sendData hpc | ack _ _ hpc =>
          simp [pc] at hpc

/-! ### What holds in every phase -/

/-- Nothing has been given away when the proxy announces the file. -/
theorem Phase.header_chunks {base : Packet} {file : List UInt8} {r : HandleRequest}
    {w : Task n} {seg : Segment size} (hp : Phase base file r w seg) (hpc : r.pc = .header) :
  r.chunks = []
  := by
  have hfront : ∀ {k c q}, Front base file k c r q → r.chunks = [] := by
    intro k c q hf
    cases hf with
    | filesize unanswered => exact unanswered.chunks
    | header _ _ _ _ chunks => exact chunks
    | data pc => simp [hpc] at pc
  cases hp with
  | hit _ _ _ unanswered => exact unanswered.chunks
  | pread _ _ _ _ _ _ front => exact hfront front
  | sendData _ _ _ _ _ _ _ _ _ front => exact hfront front
  | queued _ _ _ _ _ _ _ _ front => exact hfront front
  | taken _ _ _ _ _ _ _ rpc | given _ _ _ _ _ _ rpc | finished _ _ _ rpc => simp [hpc] at rpc
  | acked k _ m _ _ _ rpc =>
      by_cases hlt : k + m < file.length
      · simp [hpc, hlt] at rpc
      · simp [hpc, hlt] at rpc

/-- Every chunk has at least one byte, so that there are at most as many chunks as bytes. -/
theorem Filled.count_le {k c a : ℕ} {base : Packet} {file : List UInt8} {w : Task n}
    (hf : Filled size base file k c a w) :
  c ≤ k
  := by
  have hle : ∀ l : List Packet, (∀ pkt ∈ l, 1 ≤ pkt.chunkSize) →
      (l.length : ℤ) ≤ (l.map fun pkt => pkt.chunkSize).sum := by
    intro l hl
    induction l with
    | nil => simp
    | cons pkt l ih =>
        have hpkt := hl pkt List.mem_cons_self
        have hrest := ih fun x hx => hl x (List.mem_cons_of_mem pkt hx)
        simp only [List.length_cons, List.map_cons, List.sum_cons]
        omega
  have h := hle w.sent fun pkt hpkt => (hf.sizes pkt hpkt).1
  rw [hf.sum, hf.sent] at h
  omega

/-- At most the answer is in front of the next data packet. -/
theorem Front.length_le {k c : ℕ} {base : Packet} {file : List UInt8}
    {r : HandleRequest} {q : Mq} (hf : Front base file k c r q) :
  q.length ≤ 1 ∧ r.chunks.length = c
  := by
  cases hf with
  | filesize unanswered => simp [unanswered.chunks]
  | header _ _ _ _ chunks => simp [chunks]
  | data _ given => simp [given.chunks]

/-- In every phase at most two messages are under way to the proxy and one to the cache. -/
theorem Phase.queues {base : Packet} {file : List UInt8} {r : HandleRequest}
    {w : Task n} {seg : Segment size} (hp : Phase base file r w seg) :
  seg.cacheToProxy.length ≤ 2 ∧ seg.proxyToCache.length ≤ 1
  := by
  cases hp with
  | hit _ _ _ _ toProxy toCache | taken _ _ _ _ _ _ _ _ _ _ toProxy toCache
  | given _ _ _ _ _ _ _ _ _ toProxy toCache | acked _ _ _ _ _ _ _ _ toProxy toCache
  | finished _ _ _ _ _ toProxy toCache => simp [toProxy, toCache]
  | pread _ _ _ _ _ _ front toProxy toCache
  | sendData _ _ _ _ _ _ _ _ _ front toProxy toCache =>
      have hle := front.length_le.1
      simp only [toProxy, toCache, List.length_nil]
      omega
  | queued _ _ _ _ _ _ _ _ front toProxy toCache =>
      have hle := front.length_le.1
      simp only [toProxy, toCache, List.length_append, List.length_singleton, List.length_nil]
      omega

/-- In every phase the worker has filled at most the file, and the proxy has given away at most
the chunks that were sent. -/
theorem Phase.filled {base : Packet} {file : List UInt8} {r : HandleRequest}
    {w : Task n} {seg : Segment size} (hp : Phase base file r w seg) :
  ∃ k c a, Filled size base file k c a w ∧ k ≤ file.length ∧ a ≤ c ∧ r.chunks.length ≤ c
  := by
  cases hp with
  | hit _ filled _ unanswered => exact ⟨0, 0, 0, filled, by simp, le_rfl, by simp [unanswered.chunks]⟩
  | pread k c _ _ more filled front =>
      exact ⟨k, c, c, filled, more.le, le_rfl, front.length_le.2.le⟩
  | sendData k c _ _ _ chunk filled _ _ front =>
      have hle := chunk.le_file
      exact ⟨k, c, c, filled, by omega, le_rfl, front.length_le.2.le⟩
  | queued k c m _ _ chunk filled _ front =>
      have hcount := front.length_le.2
      exact ⟨k + m, c + 1, c, filled, chunk.le_file, by omega, by omega⟩
  | taken k c m _ chunk filled _ _ _ given =>
      have hcount := given.chunks
      exact ⟨k + m, c + 1, c, filled, chunk.le_file, by omega, by omega⟩
  | given k c m _ chunk filled _ _ given =>
      exact ⟨k + m, c + 1, c, filled, chunk.le_file, by omega, given.chunks.le⟩
  | acked k c m _ chunk filled _ given =>
      exact ⟨k + m, c + 1, c, filled, chunk.le_file, by omega, given.chunks.le⟩
  | finished c _ filled _ given => exact ⟨_, c, c, filled, le_rfl, le_rfl, given.chunks.le⟩

/-- The worker has found the file, and has got nothing back when it answers. -/
theorem Phase.worker_hit {num : ℕ} {base : Packet} {file : List UInt8}
    {r : HandleRequest} {w : Task n} {seg : Segment size} (ha : Answers size num file base)
    (hp : Phase base file r w seg) :
  w.pc ≠ .miss ∧ (w.pc = .hit → w.acked = 0 ∧ w.totalBytesRx < w.thrPkt.fileSize)
  := by
  cases hp with
  | hit pc filled thrPkt =>
      refine ⟨by simp [pc], fun _ => ⟨filled.acked, ?_⟩⟩
      have hpos := ha.pos
      rw [filled.total, thrPkt, ha.fileSize]
      omega
  | pread _ _ _ pc =>
      obtain pc | pc := pc
      · simp [pc]
      · simp [pc]
  | sendData _ _ _ _ pc | queued _ _ _ _ pc | taken _ _ _ pc | given _ _ _ pc
  | acked _ _ _ pc | finished _ pc => simp [pc]

/-- The worker writes the segment only when all packets it has sent have come back. -/
theorem Phase.write {num : ℕ} {base : Packet} {file : List UInt8} {r : HandleRequest}
    {w w' : Task n} {seg seg' : Segment size} (hp : Phase base file r w seg)
    (h : Task.Step num seg w seg' w') (hmem : seg'.memory ≠ seg.memory) :
  w.acked = w.sent.length
  := by
  cases h with
  | miss | hit | fail | sendData | ack => exact absurd rfl hmem
  | pread k hpc =>
      cases hp with
      | pread _ _ _ _ _ filled => rw [filled.acked, filled.sent]
      | hit pc | sendData _ _ _ _ pc | queued _ _ _ _ pc | taken _ _ _ pc | given _ _ _ pc
      | acked _ _ _ pc | finished _ pc => simp [hpc] at pc

/-- When the worker waits again, the proxy is done. -/
theorem Phase.done_of_wait {base : Packet} {file : List UInt8} {r : HandleRequest}
    {w : Task n} {seg : Segment size} (hp : Phase base file r w seg) (hw : w.pc = .wait) :
  r.pc = .done
  := by
  cases hp with
  | finished _ _ _ rpc => exact rpc
  | pread _ _ _ pc => simp [hw] at pc
  | hit pc | sendData _ _ _ _ pc | queued _ _ _ _ pc | taken _ _ _ pc | given _ _ _ pc
  | acked _ _ _ pc => simp [hw] at pc

/-- When the worker waits again, the exchange is complete. -/
theorem Phase.complete {base : Packet} {file : List UInt8} {r : HandleRequest}
    {w : Task n} {seg : Segment size} (hp : Phase base file r w seg) (hw : w.pc = .wait) :
  ∃ c, Filled size base file file.length c c w ∧ Given base file file.length c r ∧
    seg.cacheToProxy = [] ∧ seg.proxyToCache = []
  := by
  cases hp with
  | finished c _ filled _ given toProxy toCache => exact ⟨c, filled, given, toProxy, toCache⟩
  | pread _ _ _ pc => simp [hw] at pc
  | hit pc | sendData _ _ _ _ pc | queued _ _ _ _ pc | taken _ _ _ pc | given _ _ _ pc
  | acked _ _ _ pc => simp [hw] at pc

end GetFile.Cache
