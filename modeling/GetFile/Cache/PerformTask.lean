import GetFile.Cache.Channel

/-!
# Cache: one worker

`perform_task` with `send_file`: the worker takes a packet out of the control queue, looks the
file up, sends the packet back with the size of the file, and then fills the segment with one
chunk after the other, each time waiting for the packet to come back. A failed `ASSERT` ends the
process.
-/

namespace GetFile.Cache

open CString

/-- The next call in `perform_task` or `send_file`. -/
inductive TaskPc where
  | wait
  | lookup
  | miss
  | hit
  | pread
  | sendData
  | ack
  | failed
  deriving DecidableEq, Repr

/-- The local variables of `perform_task` and `send_file`, the data packets sent for the
request, and the number of packets that have come back. -/
structure Task (n : ℕ) where
  pc : TaskPc
  thrPkt : Packet
  seg : Option (Fin n)
  file : List UInt8
  totalBytesRx : ℤ
  sent : List Packet
  acked : ℕ

variable {n size : ℕ}

/-- `sprintf(len, "%d", z)`. -/
def signedDecimal (z : ℤ) : List UInt8 :=
  if z < 0 then 45 :: decimal (-z).toNat else decimal z.toNat

/-- The packet when worker `num` looks the file up. -/
def Packet.received (pkt : Packet) (num segmentSize : ℕ) : Packet :=
  { pkt with segmentSize, chunkSize := -1, worker := num }

/-- What `find_segment` finds in a queue with one segment for each index below `n`. -/
def findSegment (n : ℕ) (index : ℤ) : Option (Fin n) :=
  if h : 0 ≤ index ∧ index < n then some ⟨index.toNat, by omega⟩ else none

/-- `perform_task` before its first request. -/
def Task.start (thrPkt : Packet) : Task n where
  pc := .wait
  thrPkt := thrPkt
  seg := none
  file := []
  totalBytesRx := 0
  sent := []
  acked := 0

/-- `perform_task` with a new packet from the control queue. -/
def Task.request (thrPkt : Packet) : Task n :=
  { Task.start thrPkt with pc := .lookup }

/-- What worker `num` does between two messages of `perform_task`, where `find_segment` has found
the segment `found`: it looks the file up and fills the packet in. The cache is the function from a
name to the bytes of the file. -/
def Task.fill (get : List UInt8 → Option (List UInt8)) (num segmentSize : ℕ)
    (found : Option (Fin n)) (w : Task n) : Task n :=
  let thrPkt := w.thrPkt.received num segmentSize
  match found with
  | none => { w with thrPkt, pc := .failed }
  | some seg =>
    match get thrPkt.key with
    | none =>
      { w with pc := .miss, seg := some seg, thrPkt := { thrPkt with cacheHit := 0, fileSize := 0 } }
    | some file =>
      -- The length is an `unsigned`, printed as an `int` and read back.
      let fileSize : ℕ := file.length % 2 ^ 32
      if fileSize > 0 then
        { w with
          pc := .hit
          thrPkt :=
            { thrPkt with
              cacheHit := 1
              fileSize := atoi (signedDecimal ((fileSize : ℤ).bmod (2 ^ 32))) }
          seg := some seg
          file }
      else { w with thrPkt, pc := .failed }

/-- What worker `num` does between two messages of `perform_task`, with `find_segment` as one
step. -/
def Task.lookup (get : List UInt8 → Option (List UInt8)) (num segmentSize : ℕ)
    (w : Task n) : Task n :=
  w.fill get num segmentSize (findSegment n (w.thrPkt.received num segmentSize).segmentIndex)

/-- The loop condition of `send_file`. -/
def Task.loop (w : Task n) : Task n :=
  { w with pc := if w.totalBytesRx < w.thrPkt.fileSize then .pread else .wait }

/-- The `chunk_size` that `send_file` asks `pread` for. -/
def Task.chunk (w : Task n) : ℤ :=
  let offset := w.thrPkt.fileSize - w.totalBytesRx
  if offset < w.thrPkt.segmentSize then offset else w.thrPkt.segmentSize

/-- One step of worker `num` on the queues and the memory of its segment, where `pread` reads
`k` bytes. A `pread` that fails or finds the end of the file is the one with `k = 0`. -/
def Task.body (num k : ℕ) (seg : Segment size) (w : Task n) : Option (Segment size × Task n) :=
  match w.pc with
  | .wait | .lookup | .failed => none
  | .miss =>
    (txMq seg.cacheToProxy w.thrPkt).map fun cacheToProxy =>
      ({ seg with cacheToProxy }, { w with pc := .wait })
  | .hit =>
    (txMq seg.cacheToProxy w.thrPkt).map fun cacheToProxy =>
      ({ seg with cacheToProxy }, w.loop)
  | .pread =>
    if k = 0 then some (seg, { w with pc := .failed })
    else if k ≤ w.chunk ∧ w.totalBytesRx.toNat + k ≤ w.file.length then
      some ({ seg with memory := seg.memory.store 0 ((w.file.drop w.totalBytesRx.toNat).take k) },
        { w with pc := .sendData, thrPkt := { w.thrPkt with chunkSize := k, worker := num } })
    else none
  | .sendData =>
    (txMq seg.cacheToProxy w.thrPkt).map fun cacheToProxy =>
      ({ seg with cacheToProxy },
        { w with
          pc := .ack
          totalBytesRx := w.totalBytesRx + w.thrPkt.chunkSize
          sent := w.sent ++ [w.thrPkt] })
  | .ack =>
    (rxMq seg.proxyToCache).map fun (pkt, proxyToCache) =>
      ({ seg with proxyToCache }, { w with thrPkt := pkt, acked := w.acked + 1 }.loop)

/-- One step of worker `num` in `perform_task`. -/
def performTask (get : List UInt8 → Option (List UInt8)) (num k : ℕ) (c : Channels n size)
    (w : Task n) : Option (Channels n size × Task n) :=
  if c.exited then none else
  match w.pc with
  | .wait =>
    (rxMq c.ctrl).map fun (pkt, ctrl) => ({ c with ctrl }, Task.request pkt)
  | .lookup =>
    some ({ c with exited := (w.lookup get num size).pc = .failed }, w.lookup get num size)
  | _ =>
    match w.seg with
    | none => none
    | some i =>
      (w.body num k (c.segments i)).map fun x =>
        ({ c.set i x.1 with exited := x.2.pc = .failed }, x.2)

/-! ### What a step does -/

/-- The steps of a worker on its segment. -/
inductive Task.Step (num : ℕ) (seg : Segment size) (w : Task n) :
    Segment size → Task n → Prop where
  | miss (pc : w.pc = .miss) :
      Task.Step num seg w { seg with cacheToProxy := seg.cacheToProxy ++ [w.thrPkt] }
        { w with pc := .wait }
  | hit (pc : w.pc = .hit) :
      Task.Step num seg w { seg with cacheToProxy := seg.cacheToProxy ++ [w.thrPkt] } w.loop
  | fail (pc : w.pc = .pread) :
      Task.Step num seg w seg { w with pc := .failed }
  | pread (k : ℕ) (pc : w.pc = .pread) (pos : 0 < k) (chunk : k ≤ w.chunk)
      (file : w.totalBytesRx.toNat + k ≤ w.file.length) :
      Task.Step num seg w
        { seg with memory := seg.memory.store 0 ((w.file.drop w.totalBytesRx.toNat).take k) }
        { w with pc := .sendData, thrPkt := { w.thrPkt with chunkSize := k, worker := num } }
  | sendData (pc : w.pc = .sendData) :
      Task.Step num seg w { seg with cacheToProxy := seg.cacheToProxy ++ [w.thrPkt] }
        { w with
          pc := .ack
          totalBytesRx := w.totalBytesRx + w.thrPkt.chunkSize
          sent := w.sent ++ [w.thrPkt] }
  | ack (pkt : Packet) (rest : Mq) (pc : w.pc = .ack)
      (first : seg.proxyToCache = pkt :: rest) :
      Task.Step num seg w { seg with proxyToCache := rest }
        { w with thrPkt := pkt, acked := w.acked + 1 }.loop

/-- Every step of a worker on its segment is one of the listed ones, and a `pread` that reads
something does not fail. -/
theorem Task.body_cases {num k : ℕ} {seg seg' : Segment size} {w w' : Task n}
    (h : w.body num k seg = some (seg', w')) :
  Task.Step num seg w seg' w' ∧ (0 < k → w'.pc ≠ .failed)
  := by
  have hloop : ∀ w : Task n, w.loop.pc ≠ .failed := by
    intro w
    unfold Task.loop
    by_cases hl : w.totalBytesRx < w.thrPkt.fileSize
    · simp [hl]
    · simp [hl]
  unfold Task.body at h
  cases hpc : w.pc with
  | wait | lookup | failed => simp [hpc] at h
  | miss =>
      simp only [hpc] at h
      obtain ⟨mq, hmq, heq⟩ := Option.map_eq_some_iff.mp h
      cases heq
      rw [txMq_eq_some hmq]
      exact ⟨.miss hpc, nofun⟩
  | hit =>
      simp only [hpc] at h
      obtain ⟨mq, hmq, heq⟩ := Option.map_eq_some_iff.mp h
      cases heq
      rw [txMq_eq_some hmq]
      exact ⟨.hit hpc, fun _ => hloop w⟩
  | pread =>
      simp only [hpc] at h
      by_cases hk : k = 0
      · rw [if_pos hk] at h
        cases h
        exact ⟨.fail hpc, fun hpos => absurd hk (Nat.ne_of_gt hpos)⟩
      · rw [if_neg hk] at h
        by_cases hread : k ≤ w.chunk ∧ w.totalBytesRx.toNat + k ≤ w.file.length
        · rw [if_pos hread] at h
          cases h
          exact ⟨.pread k hpc (Nat.pos_of_ne_zero hk) hread.1 hread.2, nofun⟩
        · rw [if_neg hread] at h
          cases h
  | sendData =>
      simp only [hpc] at h
      obtain ⟨mq, hmq, heq⟩ := Option.map_eq_some_iff.mp h
      cases heq
      rw [txMq_eq_some hmq]
      exact ⟨.sendData hpc, nofun⟩
  | ack =>
      simp only [hpc] at h
      obtain ⟨⟨pkt, rest⟩, hmq, heq⟩ := Option.map_eq_some_iff.mp h
      cases heq
      exact ⟨.ack pkt rest hpc (rxMq_eq_some hmq), fun _ => hloop _⟩

/-- The steps of worker `num` in `perform_task`. -/
inductive TaskMove (get : List UInt8 → Option (List UInt8)) (num k : ℕ) (c : Channels n size)
    (w : Task n) : Channels n size → Task n → Prop where
  | wait (pkt : Packet) (ctrl : Mq) (pc : w.pc = .wait) (first : c.ctrl = pkt :: ctrl) :
      TaskMove get num k c w { c with ctrl } (Task.request pkt)
  | lookup (pc : w.pc = .lookup) :
      TaskMove get num k c w { c with exited := (w.lookup get num size).pc = .failed }
        (w.lookup get num size)
  | body (i : Fin n) (seg' : Segment size) (w' : Task n) (seg : w.seg = some i)
      (step : Task.Step num (c.segments i) w seg' w') (ok : 0 < k → w'.pc ≠ .failed) :
      TaskMove get num k c w { c.set i seg' with exited := w'.pc = .failed } w'

/-- Every step of a worker is one of the listed ones. -/
theorem performTask_cases {get : List UInt8 → Option (List UInt8)} {num k : ℕ}
    {c c' : Channels n size} {w w' : Task n} (h : performTask get num k c w = some (c', w')) :
  c.exited = false ∧ TaskMove get num k c w c' w'
  := by
  unfold performTask at h
  by_cases he : c.exited = true
  · rw [if_pos he] at h
    cases h
  · rw [if_neg he] at h
    refine ⟨by simpa using he, ?_⟩
    have hbody : (match w.seg with
        | none => none
        | some i => (w.body num k (c.segments i)).map fun x =>
          (({ c.set i x.1 with exited := x.2.pc = .failed } : Channels n size), x.2))
          = some (c', w') →
        TaskMove get num k c w c' w' := by
      intro h
      cases hseg : w.seg with
      | none => simp [hseg] at h
      | some i =>
          simp only [hseg] at h
          obtain ⟨⟨seg', w''⟩, hb, heq⟩ := Option.map_eq_some_iff.mp h
          cases heq
          exact .body i seg' w'' hseg (Task.body_cases hb).1 (Task.body_cases hb).2
    cases hpc : w.pc with
    | wait =>
        simp only [hpc] at h
        obtain ⟨⟨pkt, ctrl⟩, hmq, heq⟩ := Option.map_eq_some_iff.mp h
        cases heq
        exact .wait pkt ctrl hpc (rxMq_eq_some hmq)
    | lookup =>
        simp only [hpc] at h
        cases h
        exact .lookup hpc
    | miss | hit | pread | sendData | ack | failed =>
        simp only [hpc] at h
        exact hbody h

variable {get : List UInt8 → Option (List UInt8)} {num k : ℕ} {c c' : Channels n size}
  {w w' : Task n}

/-- A worker that waits takes the first packet out of the control queue. -/
theorem TaskMove.of_wait (h : TaskMove get num k c w c' w') (hpc : w.pc = .wait) :
  ∃ pkt ctrl, (c.ctrl = pkt :: ctrl ∧ c' = { c with ctrl }) ∧ w' = Task.request pkt
  := by
  cases h with
  | wait pkt ctrl _ first => exact ⟨pkt, ctrl, ⟨first, rfl⟩, rfl⟩
  | lookup pc => simp [hpc] at pc
  | body i seg' w' seg step ok =>
      cases step with
      | miss pc | hit pc | fail pc | pread _ pc | sendData pc | ack _ _ pc => simp [hpc] at pc

/-- A worker that has a packet looks the file up. -/
theorem TaskMove.of_lookup (h : TaskMove get num k c w c' w') (hpc : w.pc = .lookup) :
  c' = { c with exited := w'.pc = .failed } ∧ w' = w.lookup get num size
  := by
  cases h with
  | wait _ _ pc => simp [hpc] at pc
  | lookup pc => exact ⟨rfl, rfl⟩
  | body i seg' w' seg step ok =>
      cases step with
      | miss pc | hit pc | fail pc | pread _ pc | sendData pc | ack _ _ pc => simp [hpc] at pc

/-- All other steps of a worker are on its segment. -/
theorem TaskMove.of_body (h : TaskMove get num k c w c' w') (hwait : w.pc ≠ .wait)
    (hlookup : w.pc ≠ .lookup) :
  ∃ i seg', w.seg = some i ∧ Task.Step num (c.segments i) w seg' w' ∧
    (0 < k → w'.pc ≠ .failed) ∧ c' = { c.set i seg' with exited := w'.pc = .failed }
  := by
  cases h with
  | wait _ _ pc => exact absurd pc hwait
  | lookup pc => exact absurd pc hlookup
  | body i seg' w' seg step ok => exact ⟨i, seg', seg, step, ok, rfl⟩

/-- A worker keeps its segment while it serves a request. -/
theorem Task.Step.seg {seg seg' : Segment size}
    (h : Task.Step num seg w seg' w') :
  w'.seg = w.seg
  := by
  cases h with
  | miss | hit | fail | pread | sendData | ack => rfl

/-- The worker answers by sending its packet. -/
theorem Task.Step.of_hit {seg seg' : Segment size} (h : Task.Step num seg w seg' w')
    (hpc : w.pc = .hit) :
  seg'.cacheToProxy = seg.cacheToProxy ++ [w.thrPkt]
  := by
  cases h with
  | hit => rfl
  | miss pc | fail pc | pread _ pc | sendData pc | ack _ _ pc => simp [hpc] at pc

/-! ### When a step is possible -/

/-- A running worker that waits can take a message. -/
theorem performTask_isSome_wait (hrun : c.exited = false) (hpc : w.pc = .wait)
    (hrx : c.ctrl ≠ []) :
  (performTask get num k c w).isSome = true
  := by
  cases hctrl : c.ctrl with
  | nil => exact absurd hctrl hrx
  | cons pkt ctrl => simp [performTask, hrun, hpc, hctrl, rxMq]

/-- A running worker can look a file up. -/
theorem performTask_isSome_lookup (hrun : c.exited = false) (hpc : w.pc = .lookup) :
  (performTask get num k c w).isSome = true
  := by
  simp [performTask, hrun, hpc]

/-- On its segment a running worker can take a step if there is room when it sends, a message
when it receives, and something to read. -/
theorem performTask_isSome {i : Fin n} (hrun : c.exited = false) (hseg : w.seg = some i)
    (hwait : w.pc ≠ .wait) (hlookup : w.pc ≠ .lookup) (hfailed : w.pc ≠ .failed)
    (htx : w.pc ≠ .pread → w.pc ≠ .ack → (c.segments i).cacheToProxy.length < mqMaxmsg)
    (hread : w.pc = .pread → k ≤ w.chunk ∧ w.totalBytesRx.toNat + k ≤ w.file.length)
    (hrx : w.pc = .ack → (c.segments i).proxyToCache ≠ []) :
  (performTask get num k c w).isSome = true
  := by
  unfold performTask Task.body
  rw [if_neg (by simp [hrun])]
  cases hpc : w.pc with
  | wait => exact absurd hpc hwait
  | lookup => exact absurd hpc hlookup
  | failed => exact absurd hpc hfailed
  | miss | hit | sendData => simp [hseg, txMq, htx (by simp [hpc]) (by simp [hpc])]
  | pread =>
      by_cases hk : k = 0
      · simp [hseg, hk]
      · simp [hseg, hk, hread hpc]
  | ack =>
      cases hmq : (c.segments i).proxyToCache with
      | nil => exact absurd hmq (hrx hpc)
      | cons pkt mq => simp [hseg, hmq, rxMq]

/-! ### The lookup -/

/-- A length that is positive and fits into an `int` comes through the print and the reading. -/
theorem atoi_signedDecimal {len : ℕ} (hlen : len < 2 ^ 31) :
  atoi (signedDecimal (((len % 2 ^ 32 : ℕ) : ℤ).bmod (2 ^ 32))) = len
  := by
  have hmod : len % 2 ^ 32 = len := Nat.mod_eq_of_lt (by omega)
  have hbmod : ((len : ℕ) : ℤ).bmod (2 ^ 32) = len := by
    rw [Int.bmod_eq_of_le (by omega) (by omega)]
  rw [hmod, hbmod]
  unfold signedDecimal
  rw [if_neg (by omega), Int.toNat_natCast]
  apply atoi_decimal hlen

/-- A segment that exists is found. -/
theorem findSegment_val (i : Fin n) :
  findSegment n i = some i
  := by
  unfold findSegment
  rw [dif_pos (by have := i.2; omega)]
  simp

end GetFile.Cache
