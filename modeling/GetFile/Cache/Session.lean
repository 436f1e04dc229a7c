import GetFile.Cache.Phase
import GetFile.Transition.Threads

/-!
# One request between the proxy and the cache

One proxy thread in `handle_request` on a segment and one worker in `perform_task`, with the
control queue and the queues of the segment empty at the start, and the file in the cache.
Every schedule and every pattern of short reads leads through the states of `Session`, from
which the properties of the exchange can be read off.
-/

namespace GetFile.Cache

open CString Transition

variable {n size : ℕ}

/-- The two parties of a request. -/
inductive Party where
  | proxy
  | cache
  deriving DecidableEq

/-- The local states of the parties. -/
abbrev PartyLocal (n : ℕ) : Party → Type
  | .proxy => HandleRequest
  | .cache => Task n

/-- What a step of a party gets from outside: the proxy what `gfs_sendheader` returns, and the
cache how many bytes less one `pread` reads. -/
abbrev PartyAct : Party → Type
  | .proxy => ℤ
  | .cache => ℕ

/-- The code of the parties, where `pread` reads at least one byte. -/
def session (get : List UInt8 → Option (List UInt8)) (num : ℕ) (i : Fin n) :
    Code PartyAct (Channels n size) (PartyLocal n)
  | .proxy => handleRequest i
  | .cache => fun k => performTask get num (k + 1)

/-- The proxy is about to send its packet and the worker waits for one. The packet of the worker
is not initialized. -/
def sessionStart (c : Channels n size) (req pkt : Packet) :
    Pool (Channels n size) (PartyLocal n) where
  shared := c
  threads
    | .proxy => HandleRequest.start req
    | .cache => Task.start pkt

/-- The queues of segment `i` and the control queue are empty, and the cache runs. -/
structure Quiet (c : Channels n size) (i : Fin n) : Prop where
  ctrl : c.ctrl = []
  toProxy : (c.segments i).cacheToProxy = []
  toCache : (c.segments i).proxyToCache = []
  running : c.exited = false

/-- The request is for segment `i`, which has at least one byte, and for a file in the cache. -/
structure Asks (get : List UInt8 → Option (List UInt8)) (num size : ℕ) (i : Fin n)
    (file : List UInt8) (req : Packet) : Prop where
  size_pos : 0 < size
  index : req.segmentIndex = i
  found : get (req.received num size).key = some file

/-- The length of the file that the request is for is positive and fits into an `int`. -/
structure Requests (get : List UInt8 → Option (List UInt8)) (num size : ℕ) (i : Fin n)
    (file : List UInt8) (req : Packet) : Prop extends Asks get num size i file req where
  pos : 0 < file.length
  le_max : file.length < 2 ^ 31

/-- The packet with which the cache answers the request. -/
theorem Requests.answers {get : List UInt8 → Option (List UInt8)} {num : ℕ} {i : Fin n}
    {file : List UInt8} {req : Packet} (h : Requests get num size i file req) :
  Answers size num file (req.answer num size file)
  where
  size_pos := h.size_pos
  pos := h.pos
  fileSize := rfl
  cacheHit := one_ne_zero
  segmentSize := rfl
  worker := rfl

/-- The worker finds the segment. -/
theorem Asks.segment {get : List UInt8 → Option (List UInt8)} {num : ℕ} {i : Fin n}
    {file : List UInt8} {req : Packet} (h : Asks get num size i file req) :
  findSegment n (req.received num size).segmentIndex = some i
  := by
  rw [show (req.received num size).segmentIndex = i from h.index]
  apply findSegment_val

/-- The worker finds the segment and the file. -/
theorem Requests.lookup {get : List UInt8 → Option (List UInt8)} {num : ℕ} {i : Fin n}
    {file : List UInt8} {req : Packet} (h : Requests get num size i file req) :
  (Task.request req).lookup get num size =
    { (Task.request req : Task n) with
      pc := .hit, thrPkt := req.answer num size file, seg := some i, file }
  := by
  have hmod : file.length % 2 ^ 32 = file.length :=
    Nat.mod_eq_of_lt (Nat.lt_trans h.le_max (by decide))
  have hseg := h.segment
  have hpos : file.length % 2 ^ 32 > 0 := by
    rw [hmod]
    exact h.pos
  have hthr : (Task.request req : Task n).thrPkt = req := rfl
  have hsize := atoi_signedDecimal h.le_max
  unfold Task.lookup Task.fill
  simp only [hthr, hseg, h.found, if_pos hpos, hsize]
  rfl

/-- The states of the exchange. -/
inductive Session (num : ℕ) (i : Fin n) (req pkt : Packet) (file : List UInt8)
    (p : Pool (Channels n size) (PartyLocal n)) : Prop where
  | start (proxy : p.threads .proxy = HandleRequest.start req)
      (cache : p.threads .cache = Task.start pkt) (quiet : Quiet p.shared i)
  | requested (unanswered : Unanswered (p.threads .proxy))
      (cache : p.threads .cache = Task.start pkt) (ctrl : p.shared.ctrl = [req])
      (quiet : Quiet { p.shared with ctrl := [] } i)
  | looking (unanswered : Unanswered (p.threads .proxy))
      (cache : p.threads .cache = Task.request req) (quiet : Quiet p.shared i)
  | serving (ctrl : p.shared.ctrl = []) (running : p.shared.exited = false)
      (seg : (p.threads .cache).seg = some i) (alive : (p.threads .cache).pc ≠ .failed)
      (phase : Phase (req.answer num size file) file (p.threads .proxy) (p.threads .cache)
        (p.shared.segments i))

variable {get : List UInt8 → Option (List UInt8)} {num : ℕ} {i : Fin n} {file : List UInt8}
  {req pkt : Packet} {p p' : Pool (Channels n size) (PartyLocal n)}

/-- Every step of the proxy leads from one state of the exchange to another. -/
theorem Session.proxy_step (hreq : Requests get num size i file req)
    (h : Session num i req pkt file p) {answer : ℤ}
    (hs : Pool.step (session get num i) ⟨.proxy, answer⟩ p = some p') :
  Session num i req pkt file p'
  := by
  have hr := handleRequest_cases (Pool.step_own hs)
  have hw := Pool.step_other hs (u := .cache) nofun
  cases h with
  | start proxy cache quiet =>
      obtain ⟨-, hc, hr⟩ | ⟨seg', hr, -⟩ := hr
      · simp only [proxy] at hc hr
        refine .requested ?_ (by rw [hw, cache]) ?_ ?_
        · rw [hr]
          exact ⟨rfl, rfl, rfl, rfl⟩
        · rw [hc, quiet.ctrl]
          rfl
        · rw [hc]
          exact ⟨rfl, quiet.toProxy, quiet.toCache, quiet.running⟩
      · rw [proxy] at hr
        exact absurd rfl hr.pc.1
  | requested unanswered cache ctrl quiet =>
      obtain ⟨hpc, -⟩ | ⟨seg', hr, -⟩ := hr
      · simp [unanswered.pc] at hpc
      · exact absurd hr (unanswered.blocked quiet.toProxy)
  | looking unanswered cache quiet =>
      obtain ⟨hpc, -⟩ | ⟨seg', hr, -⟩ := hr
      · simp [unanswered.pc] at hpc
      · exact absurd hr (unanswered.blocked quiet.toProxy)
  | serving ctrl running seg alive phase =>
      obtain ⟨hpc, -⟩ | ⟨seg', hr, hc⟩ := hr
      · exact absurd hpc phase.proxy_pc
      · rw [← hw] at phase seg alive
        have hphase := phase.proxy_step hreq.answers hr
        refine .serving ?_ ?_ seg alive ?_
        · rw [hc]
          exact ctrl
        · rw [hc]
          exact running
        · rw [hc, Channels.set_self]
          exact hphase

/-- Every step of the cache leads from one state of the exchange to another. -/
theorem Session.cache_step (hreq : Requests get num size i file req)
    (h : Session num i req pkt file p) {k : ℕ}
    (hs : Pool.step (session get num i) ⟨.cache, k⟩ p = some p') :
  Session num i req pkt file p'
  := by
  obtain ⟨-, hw⟩ := performTask_cases (Pool.step_own hs)
  have hr := Pool.step_other hs (u := .proxy) nofun
  cases h with
  | start proxy cache quiet =>
      obtain ⟨pkt', ctrl, hc, hw'⟩ := hw.of_wait (by rw [cache]; rfl)
      rw [quiet.ctrl] at hc
      cases hc.1
  | requested unanswered cache ctrl quiet =>
      obtain ⟨pkt', ctrl', hc, hw'⟩ := hw.of_wait (by rw [cache]; rfl)
      rw [ctrl] at hc
      cases hc.1
      refine .looking (by rw [hr]; exact unanswered) hw' ?_
      rw [hc.2]
      exact quiet
  | looking unanswered cache quiet =>
      obtain ⟨hc, hw'⟩ := hw.of_lookup (by rw [cache]; rfl)
      rw [cache, hreq.lookup] at hw'
      have hpc : (p'.threads .cache).pc = .hit := by rw [hw']
      refine .serving ?_ ?_ (by rw [hw']) (by simp [hpc]) ?_
      · rw [hc]
        exact quiet.ctrl
      · rw [hc]
        simp [hpc]
      · refine .hit hpc ?_ (by rw [hw']) (by rw [hr]; exact unanswered) ?_ ?_
        · rw [hw']
          exact ⟨rfl, rfl, rfl, rfl, rfl, nofun, rfl⟩
        · rw [hc]
          exact quiet.toProxy
        · rw [hc]
          exact quiet.toCache
  | serving ctrl running seg alive phase =>
      cases hpc : (p.threads .cache).pc with
      | wait =>
          obtain ⟨pkt', ctrl', hc, hw'⟩ := hw.of_wait hpc
          rw [ctrl] at hc
          cases hc.1
      | lookup => exact absurd hpc phase.worker_pc
      | miss | hit | pread | sendData | ack | failed =>
          obtain ⟨j, seg', hseg, hstep, hok, hc⟩ := hw.of_body (by simp [hpc]) (by simp [hpc])
          rw [seg] at hseg
          cases hseg
          rw [← hr] at phase
          have hphase := phase.worker_step hreq.answers hstep
          have hok := hok (Nat.succ_pos k)
          refine .serving ?_ ?_ (by rw [hstep.seg, seg]) hok ?_
          · rw [hc]
            exact ctrl
          · rw [hc]
            simpa using hok
          · rw [hc]
            simpa using hphase

/-- Every step leads from one state of the exchange to another. -/
theorem Session.step (hreq : Requests get num size i file req)
    (h : Session num i req pkt file p) {a : Σ t, PartyAct t}
    (hs : Pool.step (session get num i) a p = some p') :
  Session num i req pkt file p'
  := by
  obtain ⟨t, x⟩ := a
  cases t with
  | proxy => exact h.proxy_step hreq hs
  | cache => exact h.cache_step hreq hs

/-- Every state that a run reaches is a state of the exchange. -/
theorem Session.run {c : Channels n size} (hreq : Requests get num size i file req)
    (hc : Quiet c i) {as : List (Σ t, PartyAct t)}
    (h : run (Pool.step (session get num i)) as (sessionStart c req pkt) = some p) :
  Session num i req pkt file p
  := by
  refine run_invariant (fun a s s' hs hstep => Session.step hreq hs hstep) ?_ h
  exact .start rfl rfl hc

/-! ### No state is stuck -/

/-- Both parties have come to the end of the request. -/
def Complete (p : Pool (Channels n size) (PartyLocal n)) : Prop :=
  (p.threads .proxy).pc = .done ∧ (p.threads .cache).pc = .wait

/-- In every phase but the last one of the parties can take a step. -/
theorem Phase.enabled (get : List UInt8 → Option (List UInt8)) {base : Packet}
    {r : HandleRequest} {w : Task n} {c : Channels n size} (ha : Answers size num file base)
    (hp : Phase base file r w (c.segments i)) (hrun : c.exited = false) (hseg : w.seg = some i)
    (hfailed : w.pc ≠ .failed) :
  w.pc = .wait ∨ (handleRequest i 0 c r).isSome = true ∨
    (performTask get num 1 c w).isSome = true
  := by
  have hqueues := hp.queues
  have hmax : mqMaxmsg = 10 := rfl
  have htx : (c.segments i).cacheToProxy.length < mqMaxmsg := by omega
  cases hp with
  | hit pc =>
      right
      right
      exact performTask_isSome hrun hseg (by simp [pc]) (by simp [pc]) hfailed (fun _ _ => htx)
        (by simp [pc]) (by simp [pc])
  | pread k c' q pc more filled =>
      right
      right
      obtain ⟨hfs, hss, -⟩ := filled.thrPkt_eq
      have hpos := ha.size_pos
      refine performTask_isSome hrun hseg ?_ ?_ hfailed (fun _ _ => htx) (fun _ => ?_) ?_
      · obtain pc | pc := pc
        · simp [pc]
        · simp [pc]
      · obtain pc | pc := pc
        · simp [pc]
        · simp [pc]
      · simp only [Task.chunk, hfs, hss, ha.fileSize, ha.segmentSize, filled.total, filled.file,
          Int.toNat_natCast]
        constructor
        · by_cases hlt : (file.length : ℤ) - k < size
          · rw [if_pos hlt]
            omega
          · rw [if_neg hlt]
            omega
        · exact more
      · intro hack
        obtain pc | pc := pc
        · simp [hack] at pc
        · simp [hack] at pc
  | sendData k c' m q pc =>
      right
      right
      exact performTask_isSome hrun hseg (by simp [pc]) (by simp [pc]) hfailed (fun _ _ => htx)
        (by simp [pc]) (by simp [pc])
  | queued k c' m q pc chunk filled holds front toProxy toCache =>
      right
      left
      have hrx : (c.segments i).cacheToProxy ≠ [] := by
        rw [toProxy]
        exact List.append_ne_nil_of_right_ne_nil q (List.cons_ne_nil _ _)
      cases front with
      | filesize unanswered =>
          exact handleRequest_isSome (by simp [unanswered.pc]) (by simp [unanswered.pc])
            (fun _ => hrx) (by simp [unanswered.pc])
      | header pc | data pc =>
          exact handleRequest_isSome (by simp [pc]) (by simp [pc]) (fun _ => hrx) (by simp [pc])
  | taken k c' m pc chunk filled holds rpc =>
      right
      left
      exact handleRequest_isSome (by simp [rpc]) (by simp [rpc]) (by simp [rpc]) (by simp [rpc])
  | given k c' m pc chunk filled rpc =>
      right
      left
      exact handleRequest_isSome (by simp [rpc]) (by simp [rpc]) (by simp [rpc])
        (fun _ => by omega)
  | acked k c' m pc chunk filled rpc given toProxy toCache =>
      right
      right
      refine performTask_isSome hrun hseg (by simp [pc]) (by simp [pc]) hfailed (fun _ _ => htx)
        (by simp [pc]) (fun _ => ?_)
      rw [toCache]
      exact List.cons_ne_nil _ _
  | finished c' pc => exact .inl pc

/-- No `ASSERT` has failed. -/
theorem Session.running (h : Session num i req pkt file p) :
  p.shared.exited = false
  := by
  cases h with
  | start _ _ quiet => exact quiet.running
  | requested _ _ _ quiet => exact quiet.running
  | looking _ _ quiet => exact quiet.running
  | serving _ running => exact running

/-- Before the request is complete one of the parties can take a step. -/
theorem Session.enabled (hreq : Requests get num size i file req)
    (h : Session num i req pkt file p) (hinc : ¬ Complete p) :
  ∃ a, (Pool.step (session get num i) a p).isSome = true
  := by
  cases h with
  | start proxy cache quiet =>
      use ⟨.proxy, (0 : ℤ)⟩
      apply Pool.step_isSome
      apply handleRequest_isSome_send
      · rw [proxy]
        rfl
      · rw [quiet.ctrl]
        decide
  | requested unanswered cache ctrl quiet =>
      use ⟨.cache, (0 : ℕ)⟩
      apply Pool.step_isSome
      apply performTask_isSome_wait
      · exact quiet.running
      · rw [cache]
        rfl
      · rw [ctrl]
        exact List.cons_ne_nil _ _
  | looking unanswered cache quiet =>
      use ⟨.cache, (0 : ℕ)⟩
      apply Pool.step_isSome
      apply performTask_isSome_lookup
      · exact quiet.running
      · rw [cache]
        rfl
  | serving ctrl running seg alive phase =>
      obtain hw | hr | hw := phase.enabled get hreq.answers running seg alive
      · exact absurd ⟨phase.done_of_wait hw, hw⟩ hinc
      · exact ⟨⟨.proxy, (0 : ℤ)⟩, Pool.step_isSome hr⟩
      · exact ⟨⟨.cache, (0 : ℕ)⟩, Pool.step_isSome hw⟩

/-! ### What holds in every state -/

/-- At most two messages are under way to the proxy and one to the cache. -/
theorem Session.queues (h : Session num i req pkt file p) :
  (p.shared.segments i).cacheToProxy.length ≤ 2 ∧ (p.shared.segments i).proxyToCache.length ≤ 1
  := by
  cases h with
  | start _ _ quiet => simp [quiet.toProxy, quiet.toCache]
  | requested _ _ _ quiet =>
      have htoProxy : (p.shared.segments i).cacheToProxy = [] := quiet.toProxy
      have htoCache : (p.shared.segments i).proxyToCache = [] := quiet.toCache
      simp [htoProxy, htoCache]
  | looking _ _ quiet => simp [quiet.toProxy, quiet.toCache]
  | serving _ _ _ _ phase => exact phase.queues

/-- The memory of the segment changes only when all packets sent have come back. -/
theorem Session.write (h : Session num i req pkt file p) {a : Σ t, PartyAct t}
    (hs : Pool.step (session get num i) a p = some p')
    (hmem : (p'.shared.segments i).memory ≠ (p.shared.segments i).memory) :
  (p.threads .cache).acked = (p.threads .cache).sent.length
  := by
  obtain ⟨t, x⟩ := a
  cases t with
  | proxy =>
      obtain ⟨-, hc, -⟩ | ⟨seg', hr, hc⟩ := handleRequest_cases (Pool.step_own hs)
      · rw [hc] at hmem
        exact absurd rfl hmem
      · rw [hc, Channels.set_self] at hmem
        exact absurd hr.memory hmem
  | cache =>
      obtain ⟨-, hw⟩ := performTask_cases (Pool.step_own hs)
      cases hpc : (p.threads .cache).pc with
      | wait =>
          obtain ⟨_, _, hc, -⟩ := hw.of_wait hpc
          rw [hc.2] at hmem
          exact absurd rfl hmem
      | lookup =>
          obtain ⟨hc, -⟩ := hw.of_lookup hpc
          rw [hc] at hmem
          exact absurd rfl hmem
      | miss | hit | pread | sendData | ack | failed =>
          obtain ⟨j, seg', hseg, hstep, -, hc⟩ := hw.of_body (by simp [hpc]) (by simp [hpc])
          cases h with
          | start _ cache => simp [cache, Task.start] at hpc
          | requested _ cache => simp [cache, Task.start] at hpc
          | looking _ cache => simp [cache, Task.request] at hpc
          | serving ctrl running seg alive phase =>
              rw [seg] at hseg
              cases hseg
              rw [hc] at hmem
              simp only [Channels.set_self] at hmem
              exact phase.write hstep hmem

/-- The chunks of the packets sent fit into the segment. -/
theorem Session.sizes (h : Session num i req pkt file p) :
  ∀ x ∈ (p.threads .cache).sent, 1 ≤ x.chunkSize ∧ x.chunkSize ≤ size
  := by
  cases h with
  | start _ cache => simp [cache, Task.start]
  | requested _ cache => simp [cache, Task.start]
  | looking _ cache => simp [cache, Task.request, Task.start]
  | serving _ _ _ _ phase =>
      obtain ⟨k, c, a, filled, -⟩ := phase.filled
      exact filled.sizes

/-- At the end the parties have counted the same chunks, the queues are empty and the proxy has
passed the file on. -/
theorem Session.complete (hreq : Requests get num size i file req)
    (h : Session num i req pkt file p) (hc : Complete p) :
  (p.threads .proxy).chunks.length = (p.threads .cache).sent.length ∧
    (p.shared.segments i).cacheToProxy = [] ∧ (p.shared.segments i).proxyToCache = [] ∧
    (p.threads .proxy).retValue = some (file.length : ℤ) ∧ (p.threads .proxy).sent = file
  := by
  obtain ⟨hr, hw⟩ := hc
  cases h with
  | start proxy => simp [proxy, HandleRequest.start] at hr
  | requested unanswered | looking unanswered => simp [unanswered.pc] at hr
  | serving _ _ _ _ phase =>
      obtain ⟨c, filled, given, toProxy, toCache⟩ := phase.complete hw
      refine ⟨by rw [given.chunks, filled.sent], toProxy, toCache, given.ret hreq.pos, ?_⟩
      rw [given.sent, List.take_length]

/-! ### The number of steps -/

/-- The steps that the proxy has taken. -/
def HandleRequest.steps (r : HandleRequest) : ℕ :=
  match r.pc with
  | .send => 0
  | .filesize => 1
  | .header => 2
  | .data | .done => 3 * r.chunks.length + 3
  | .gfsSend => 3 * r.chunks.length + 4
  | .ack => 3 * r.chunks.length + 2

/-- The steps that the worker has taken for its first request. -/
def Task.steps (w : Task n) : ℕ :=
  match w.pc with
  | .wait => if w.acked = 0 then 0 else 3 * w.acked + 3
  | .lookup => 1
  | .hit => 2
  | .pread => 3 * w.acked + 3
  | .sendData => 3 * w.acked + 4
  | .ack => 3 * w.acked + 5
  | .miss | .failed => 0

/-- Every step of the proxy is counted. -/
theorem HandleRequest.Step.steps {seg seg' : Segment size} {r r' : HandleRequest}
    (h : HandleRequest.Step seg r seg' r') (hchunks : r.pc = .header → r.chunks = []) :
  r'.steps = r.steps + 1
  := by
  have hloop : ∀ r : HandleRequest, r.loop.steps = 3 * r.chunks.length + 3 := by
    intro r
    by_cases hlt : r.totalBytesRx < r.thrPkt.fileSize
    · simp [HandleRequest.loop, HandleRequest.steps, hlt]
    · simp [HandleRequest.loop, HandleRequest.steps, hlt]
  cases h with
  | filesize _ _ pc => simp [HandleRequest.steps, pc]
  | hit pc =>
      rw [hloop]
      simp [HandleRequest.steps, pc, hchunks pc]
  | miss _ pc => simp [HandleRequest.steps, pc, hchunks pc]
  | data _ _ pc => simp [HandleRequest.steps, pc]
  | gfsSend pc =>
      simp only [HandleRequest.steps, pc, List.length_append, List.length_singleton]
      omega
  | ack pc =>
      rw [hloop]
      simp [HandleRequest.steps, pc]

/-- Every step of the worker on its segment is counted. -/
theorem Task.Step.steps {seg seg' : Segment size} {w w' : Task n}
    (h : Task.Step num seg w seg' w') (halive : w'.pc ≠ .failed) (hmiss : w.pc ≠ .miss)
    (hhit : w.pc = .hit → w.acked = 0 ∧ w.totalBytesRx < w.thrPkt.fileSize) :
  w'.steps = w.steps + 1
  := by
  cases h with
  | miss pc => exact absurd pc hmiss
  | hit pc =>
      obtain ⟨hacked, hlt⟩ := hhit pc
      simp [Task.loop, Task.steps, pc, hlt, hacked]
  | fail => exact absurd rfl halive
  | pread _ pc => simp [Task.steps, pc]
  | sendData pc => simp [Task.steps, pc]
  | ack p rest pc =>
      by_cases hlt : w.totalBytesRx < p.fileSize
      · simp only [Task.loop, Task.steps, pc, hlt, if_true]
        omega
      · simp only [Task.loop, Task.steps, pc, hlt, if_false, Nat.succ_ne_zero]
        omega

/-- The steps that the two parties have taken. -/
def steps (p : Pool (Channels n size) (PartyLocal n)) : ℕ :=
  (p.threads .proxy).steps + (p.threads .cache).steps

/-- Every step of the exchange is counted. -/
theorem Session.count (hreq : Requests get num size i file req)
    (h : Session num i req pkt file p) {a : Σ t, PartyAct t}
    (hs : Pool.step (session get num i) a p = some p') :
  steps p' = steps p + 1
  := by
  obtain ⟨t, x⟩ := a
  unfold steps
  cases t with
  | proxy =>
      rw [Pool.step_other hs (u := .cache) nofun, Nat.add_right_comm]
      congr 1
      obtain ⟨hpc, -, hr⟩ | ⟨seg', hr, -⟩ := handleRequest_cases (Pool.step_own hs)
      · rw [hr]
        simp [HandleRequest.steps, hpc]
      · apply hr.steps
        intro hpc
        cases h with
        | start proxy => simp [proxy, HandleRequest.start] at hpc
        | requested unanswered | looking unanswered => simp [unanswered.pc] at hpc
        | serving _ _ _ _ phase => exact phase.header_chunks hpc
  | cache =>
      rw [Pool.step_other hs (u := .proxy) nofun, Nat.add_assoc]
      congr 1
      obtain ⟨-, hw⟩ := performTask_cases (Pool.step_own hs)
      cases h with
      | start proxy cache quiet =>
          obtain ⟨_, _, hc, -⟩ := hw.of_wait (by rw [cache]; rfl)
          rw [quiet.ctrl] at hc
          cases hc.1
      | requested unanswered cache ctrl quiet =>
          obtain ⟨_, _, -, hw'⟩ := hw.of_wait (by rw [cache]; rfl)
          rw [hw', cache]
          rfl
      | looking unanswered cache quiet =>
          obtain ⟨-, hw'⟩ := hw.of_lookup (by rw [cache]; rfl)
          rw [hw', cache, hreq.lookup]
          rfl
      | serving ctrl running seg alive phase =>
          cases hpc : (p.threads .cache).pc with
          | wait =>
              obtain ⟨_, _, hc, -⟩ := hw.of_wait hpc
              rw [ctrl] at hc
              cases hc.1
          | lookup => exact absurd hpc phase.worker_pc
          | miss | hit | pread | sendData | ack | failed =>
              obtain ⟨j, seg', -, hstep, hok, -⟩ := hw.of_body (by simp [hpc]) (by simp [hpc])
              obtain ⟨hmiss, hhit⟩ := phase.worker_hit hreq.answers
              exact hstep.steps (hok (Nat.succ_pos x)) hmiss hhit

/-- A proxy that has given away `c` chunks has taken at most `3 c + 4` steps. -/
theorem HandleRequest.steps_le (r : HandleRequest) :
  r.steps ≤ 3 * r.chunks.length + 4
  := by
  unfold HandleRequest.steps
  cases r.pc with
  | send | filesize | header | data | gfsSend | ack | done => simp only; omega

/-- A worker that has got `a` packets back has taken at most `3 a + 5` steps. -/
theorem Task.steps_le (w : Task n) :
  w.steps ≤ 3 * w.acked + 5
  := by
  unfold Task.steps
  cases w.pc with
  | wait =>
      by_cases h : w.acked = 0
      · simp [h]
      · simp [h]
  | lookup | miss | hit | pread | sendData | ack | failed => simp only; omega

/-- There are at most six steps for each byte of the file and nine more. -/
theorem Session.steps_le (h : Session num i req pkt file p) :
  steps p ≤ 6 * file.length + 9
  := by
  have hproxy := (p.threads .proxy).steps_le
  have hcache := (p.threads .cache).steps_le
  have hcounts : (p.threads .proxy).chunks.length ≤ file.length ∧
      (p.threads .cache).acked ≤ file.length := by
    cases h with
    | start proxy cache => simp [proxy, cache, HandleRequest.start, Task.start]
    | requested unanswered cache => simp [unanswered.chunks, cache, Task.start]
    | looking unanswered cache => simp [unanswered.chunks, cache, Task.request, Task.start]
    | serving _ _ _ _ phase =>
        obtain ⟨k, c, a, filled, hk, ha, hc⟩ := phase.filled
        have hle := filled.count_le
        rw [filled.acked]
        omega
  unfold steps
  omega

/-! ### The exchange -/

/-- For every file whose length is positive and fits into an `int`, every size of the segment,
every schedule of the two parties and every pattern of short reads: no state before the end is
stuck, and there are not more steps than the file has bytes, up to a factor; at most two
messages are under way to the proxy and one to the cache; the cache writes the segment only
when every packet it has sent has come back; every chunk fits into the segment; and at the end
both parties have counted the same chunks, the queues are empty, and `handle_request` returns
the length of the file and has given exactly its bytes to `gfs_send`. -/
theorem session_lockStep {c : Channels n size} (hreq : Requests get num size i file req)
    (hc : Quiet c i) {as : List (Σ t, PartyAct t)}
    (h : run (Pool.step (session get num i)) as (sessionStart c req pkt) = some p) :
  (¬ Complete p → ∃ a, (Pool.step (session get num i) a p).isSome = true) ∧
  as.length ≤ 6 * file.length + 9 ∧
  (p.shared.segments i).cacheToProxy.length ≤ 2 ∧
  (p.shared.segments i).proxyToCache.length ≤ 1 ∧
  (∀ a p', Pool.step (session get num i) a p = some p' →
    (p'.shared.segments i).memory ≠ (p.shared.segments i).memory →
    (p.threads .cache).acked = (p.threads .cache).sent.length) ∧
  (∀ x ∈ (p.threads .cache).sent, 1 ≤ x.chunkSize ∧ x.chunkSize ≤ size) ∧
  (Complete p →
    (p.threads .proxy).chunks.length = (p.threads .cache).sent.length ∧
    (p.shared.segments i).cacheToProxy = [] ∧ (p.shared.segments i).proxyToCache = [] ∧
    (p.threads .proxy).retValue = some (file.length : ℤ) ∧
    (p.threads .proxy).sent = file)
  := by
  have hs := Session.run hreq hc h
  constructor
  · exact hs.enabled hreq
  constructor
  · have hlen := run_length (fun _ _ _ hs hstep => Session.step hreq hs hstep)
      (fun _ _ _ hs hstep => Session.count hreq hs hstep) (Session.start rfl rfl hc) h
    have hle := hs.steps_le
    omega
  constructor
  · exact hs.queues.1
  constructor
  · exact hs.queues.2
  constructor
  · exact fun a p' hstep hmem => hs.write hstep hmem
  constructor
  · exact hs.sizes
  · exact hs.complete hreq

/-- A file of two bytes goes through a segment of one byte. -/
theorem session_lockStep_twoBytes :
  ∃ (as : List (Σ t, PartyAct t)) (p : Pool (Channels 1 1) (PartyLocal 1)),
    run (Pool.step (session (fun _ => some [7, 8]) 0 0)) as
      (sessionStart Channels.init ⟨⟨[47], 0, 0, 0, 0, 0⟩, 0⟩ ⟨⟨[], 0, 0, 0, 0, 0⟩, 0⟩) = some p ∧
    Complete p ∧ (p.threads .proxy).sent = [7, 8]
  := by
  have hrun : ∃ (as : List (Σ t, PartyAct t)) (p : Pool (Channels 1 1) (PartyLocal 1)),
      run (Pool.step (session (fun _ => some [7, 8]) 0 0)) as
        (sessionStart Channels.init ⟨⟨[47], 0, 0, 0, 0, 0⟩, 0⟩ ⟨⟨[], 0, 0, 0, 0, 0⟩, 0⟩) = some p ∧
      (p.threads .proxy).pc = .done ∧ (p.threads .cache).pc = .wait := by
    let proxy : Σ t, PartyAct t := ⟨.proxy, (0 : ℤ)⟩
    let cache : Σ t, PartyAct t := ⟨.cache, (0 : ℕ)⟩
    exact ⟨proxy :: List.replicate 5 cache ++ List.replicate 5 proxy ++ List.replicate 3 cache
      ++ List.replicate 3 proxy ++ [cache], _, rfl, rfl, rfl⟩
  obtain ⟨as, p, h, hc⟩ := hrun
  have hreq : Requests (fun _ => some [7, 8]) 0 1 (0 : Fin 1) [7, 8] ⟨⟨[47], 0, 0, 0, 0, 0⟩, 0⟩ :=
    ⟨⟨by decide, rfl, rfl⟩, by decide, by decide⟩
  have hquiet : Quiet (Channels.init : Channels 1 1) 0 := ⟨rfl, rfl, rfl, rfl⟩
  exact ⟨as, p, h, hc, ((session_lockStep hreq hquiet h).2.2.2.2.2.2 hc).2.2.2.2⟩

end GetFile.Cache
