import GetFile.Cache.Channel

/-!
# Proxy: one request

`handle_request` with `rx_filesize`: the proxy thread sends its packet to the cache, reads the
size of the file, and then takes one chunk after the other out of the segment. `gfs_send` is
taken to send all it is given. The loop condition is evaluated at the end of the step before
it.
-/

namespace GetFile.Cache

open CString

/-- The statuses `GF_OK` and `GF_FILE_NOT_FOUND`. -/
inductive Status where
  | ok
  | fileNotFound
  deriving DecidableEq, Repr

/-- The next call in `handle_request`. -/
inductive RequestPc where
  | send
  | filesize
  | header
  | data
  | gfsSend
  | ack
  | done
  deriving DecidableEq, Repr

/-- The local variables of `handle_request`, the status and the length given to
`gfs_sendheader`, and the bytes given to each `gfs_send`. -/
structure HandleRequest where
  pc : RequestPc
  thrPkt : Packet
  totalBytesRx : ℤ
  retValue : Option ℤ
  header : Option (Status × ℕ)
  chunks : List (List UInt8)

/-- An `int` converted to `size_t`. -/
def sizeT (z : ℤ) : ℕ :=
  (z % 2 ^ 64).toNat

/-- `init_thread_pkt`: the packet is not cleared before, and `memcpy` copies as many bytes as
the array holds, of the path, its terminator and the memory behind it. -/
def initThreadPkt (pkt : Packet) (path behind : List UInt8) (segmentIndex : ℤ) :
    Packet :=
  { pkt with
    requestedFile := (path ++ 0 :: behind ++ List.replicate maxRequestLen 0).take maxRequestLen
    segmentSize := 0
    chunkSize := 0
    segmentIndex }

/-- `handle_request` when its packet is filled in. -/
def HandleRequest.start (thrPkt : Packet) : HandleRequest where
  pc := .send
  thrPkt := thrPkt
  totalBytesRx := 0
  retValue := none
  header := none
  chunks := []

/-- The loop condition of `handle_request`. -/
def HandleRequest.loop (r : HandleRequest) : HandleRequest :=
  { r with pc := if r.totalBytesRx < r.thrPkt.fileSize then .data else .done }

/-- One step in the loop of `handle_request`, with the queues and the memory of its segment,
where `gfs_sendheader` returns `answer`. -/
def HandleRequest.body {size : ℕ} (answer : ℤ) (seg : Segment size) (r : HandleRequest) :
    Option (Segment size × HandleRequest) :=
  match r.pc with
  | .send => none
  | .filesize =>
    (rxMq seg.cacheToProxy).map fun (pkt, cacheToProxy) =>
      ({ seg with cacheToProxy }, { r with pc := .header, thrPkt := pkt })
  | .header =>
    if r.thrPkt.cacheHit ≠ 0 then
      some (seg, { r with header := some (.ok, sizeT r.thrPkt.fileSize) }.loop)
    else
      some (seg, { r with
        pc := .done
        header := some (.fileNotFound, 0)
        retValue := some answer })
  | .data =>
    (rxMq seg.cacheToProxy).map fun (pkt, cacheToProxy) =>
      ({ seg with cacheToProxy }, { r with pc := .gfsSend, thrPkt := pkt })
  | .gfsSend =>
    some (seg, { r with
      pc := .ack
      totalBytesRx := r.totalBytesRx + r.thrPkt.chunkSize
      retValue := some (r.totalBytesRx + r.thrPkt.chunkSize)
      chunks := r.chunks ++ [seg.memory.slice 0 r.thrPkt.chunkSize.toNat] })
  | .ack =>
    (txMq seg.proxyToCache r.thrPkt).map fun proxyToCache => ({ seg with proxyToCache }, r.loop)
  | .done => none

/-- One step of `handle_request` on segment `i`. -/
def handleRequest {n size : ℕ} (i : Fin n) (answer : ℤ) (c : Channels n size) (r : HandleRequest) :
    Option (Channels n size × HandleRequest) :=
  match r.pc with
  | .send =>
    (txMq c.ctrl r.thrPkt).map fun ctrl => ({ c with ctrl }, { r with pc := .filesize })
  | _ => (r.body answer (c.segments i)).map fun x => (c.set i x.1, x.2)

/-- The bytes given to `gfs_send` in all. -/
def HandleRequest.sent (r : HandleRequest) : List UInt8 :=
  r.chunks.flatten

/-! ### What a step does -/

/-- The steps in the loop of `handle_request`. -/
inductive HandleRequest.Step {size : ℕ} (seg : Segment size) (r : HandleRequest) :
    Segment size → HandleRequest → Prop where
  | filesize (pkt : Packet) (rest : Mq) (pc : r.pc = .filesize)
      (first : seg.cacheToProxy = pkt :: rest) :
      HandleRequest.Step seg r { seg with cacheToProxy := rest }
        { r with pc := .header, thrPkt := pkt }
  | hit (pc : r.pc = .header) (hit : r.thrPkt.cacheHit ≠ 0) :
      HandleRequest.Step seg r seg
        { r with header := some (.ok, sizeT r.thrPkt.fileSize) }.loop
  | miss (answer : ℤ) (pc : r.pc = .header) (miss : r.thrPkt.cacheHit = 0) :
      HandleRequest.Step seg r seg
        { r with pc := .done, header := some (.fileNotFound, 0), retValue := some answer }
  | data (pkt : Packet) (rest : Mq) (pc : r.pc = .data)
      (first : seg.cacheToProxy = pkt :: rest) :
      HandleRequest.Step seg r { seg with cacheToProxy := rest }
        { r with pc := .gfsSend, thrPkt := pkt }
  | gfsSend (pc : r.pc = .gfsSend) :
      HandleRequest.Step seg r seg
        { r with
          pc := .ack
          totalBytesRx := r.totalBytesRx + r.thrPkt.chunkSize
          retValue := some (r.totalBytesRx + r.thrPkt.chunkSize)
          chunks := r.chunks ++ [seg.memory.slice 0 r.thrPkt.chunkSize.toNat] }
  | ack (pc : r.pc = .ack) :
      HandleRequest.Step seg r { seg with proxyToCache := seg.proxyToCache ++ [r.thrPkt] } r.loop

/-- The loop has been entered and not left when it takes a step. -/
theorem HandleRequest.Step.pc {size : ℕ} {seg seg' : Segment size} {r r' : HandleRequest}
    (h : HandleRequest.Step seg r seg' r') :
  r.pc ≠ .send ∧ r.pc ≠ .done
  := by
  cases h with
  | filesize _ _ pc | hit pc | miss _ pc | data _ _ pc | gfsSend pc | ack pc => simp [pc]

/-- The proxy does not write the segment. -/
theorem HandleRequest.Step.memory {size : ℕ} {seg seg' : Segment size} {r r' : HandleRequest}
    (h : HandleRequest.Step seg r seg' r') :
  seg'.memory = seg.memory
  := by
  cases h with
  | filesize | hit | miss | data | gfsSend | ack => rfl

/-- Every step in the loop of `handle_request` is one of the listed ones. -/
theorem HandleRequest.body_cases {size : ℕ} {answer : ℤ} {seg seg' : Segment size}
    {r r' : HandleRequest} (h : r.body answer seg = some (seg', r')) :
  HandleRequest.Step seg r seg' r'
  := by
  unfold HandleRequest.body at h
  cases hpc : r.pc with
  | send | done => simp [hpc] at h
  | filesize =>
      simp only [hpc] at h
      obtain ⟨⟨pkt, rest⟩, hmq, heq⟩ := Option.map_eq_some_iff.mp h
      cases heq
      exact .filesize pkt rest hpc (rxMq_eq_some hmq)
  | header =>
      simp only [hpc] at h
      by_cases hhit : r.thrPkt.cacheHit ≠ 0
      · rw [if_pos hhit] at h
        cases h
        exact .hit hpc hhit
      · rw [if_neg hhit] at h
        cases h
        exact .miss answer hpc (not_not.mp hhit)
  | data =>
      simp only [hpc] at h
      obtain ⟨⟨pkt, rest⟩, hmq, heq⟩ := Option.map_eq_some_iff.mp h
      cases heq
      exact .data pkt rest hpc (rxMq_eq_some hmq)
  | gfsSend =>
      simp only [hpc] at h
      cases h
      exact .gfsSend hpc
  | ack =>
      simp only [hpc] at h
      obtain ⟨mq, hmq, heq⟩ := Option.map_eq_some_iff.mp h
      cases heq
      rw [txMq_eq_some hmq]
      exact .ack hpc

/-- A step of `handle_request` sends the request, or it is one of its loop on the segment. -/
theorem handleRequest_cases {n size : ℕ} {i : Fin n} {answer : ℤ} {c c' : Channels n size}
    {r r' : HandleRequest} (h : handleRequest i answer c r = some (c', r')) :
  (r.pc = .send ∧ c' = { c with ctrl := c.ctrl ++ [r.thrPkt] } ∧
      r' = { r with pc := .filesize }) ∨
    ∃ seg', HandleRequest.Step (c.segments i) r seg' r' ∧ c' = c.set i seg'
  := by
  have hbody : (r.body answer (c.segments i)).map (fun x => (c.set i x.1, x.2)) = some (c', r') →
      ∃ seg', HandleRequest.Step (c.segments i) r seg' r' ∧ c' = c.set i seg' := by
    intro h
    obtain ⟨⟨seg', r''⟩, hb, heq⟩ := Option.map_eq_some_iff.mp h
    cases heq
    exact ⟨seg', HandleRequest.body_cases hb, rfl⟩
  unfold handleRequest at h
  cases hpc : r.pc with
  | send =>
      simp only [hpc] at h
      obtain ⟨mq, hmq, heq⟩ := Option.map_eq_some_iff.mp h
      cases heq
      rw [txMq_eq_some hmq]
      exact .inl ⟨rfl, rfl, rfl⟩
  | filesize | header | data | gfsSend | ack | done =>
      simp only [hpc] at h
      exact .inr (hbody h)

/-! ### When a step is possible -/

/-- The proxy can send its request while the control queue is not full. -/
theorem handleRequest_isSome_send {n size : ℕ} {i : Fin n} {answer : ℤ} {c : Channels n size}
    {r : HandleRequest} (hpc : r.pc = .send) (hroom : c.ctrl.length < mqMaxmsg) :
  (handleRequest i answer c r).isSome = true
  := by
  simp [handleRequest, hpc, txMq, hroom]

/-- In its loop the proxy can take a step if a message is there when it receives, and room when
it sends. -/
theorem handleRequest_isSome {n size : ℕ} {i : Fin n} {answer : ℤ} {c : Channels n size}
    {r : HandleRequest} (hsend : r.pc ≠ .send) (hdone : r.pc ≠ .done)
    (hrx : r.pc = .filesize ∨ r.pc = .data → (c.segments i).cacheToProxy ≠ [])
    (htx : r.pc = .ack → (c.segments i).proxyToCache.length < mqMaxmsg) :
  (handleRequest i answer c r).isSome = true
  := by
  have hrx' : ∀ mq : Mq, mq ≠ [] → (rxMq mq).isSome = true := by
    intro mq hmq
    cases mq with
    | nil => exact absurd rfl hmq
    | cons pkt mq => rfl
  unfold handleRequest HandleRequest.body
  cases hpc : r.pc with
  | send => exact absurd hpc hsend
  | done => exact absurd hpc hdone
  | filesize => simpa using hrx' _ (hrx (.inl hpc))
  | data => simpa using hrx' _ (hrx (.inr hpc))
  | header =>
      by_cases hhit : r.thrPkt.cacheHit = 0
      · simp [hhit]
      · simp [hhit]
  | gfsSend => simp
  | ack => simp [txMq, htx hpc]

end GetFile.Cache
