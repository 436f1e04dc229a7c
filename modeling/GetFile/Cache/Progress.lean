import GetFile.Cache.Transfers
import GetFile.Cache.Waiting

/-!
# Some thread can go on

As long as a call of `handle_with_cache` has not returned, some thread can go on
(`Alive.enabled`): a thread that holds the mutex, one that takes it while it is free, a thread in
`handle_request` or a worker that serves a request, and when nothing else is possible, a thread
that has been woken up. The steps that are taken are those of the calls that have begun, without
spurious wake-ups, without a failing `pread`, and where each worker takes its own packets.
-/

namespace GetFile.Cache

open CString Transition

variable {n size threads workers : ℕ} {get : List UInt8 → Option (List UInt8)}
  {p p' : Pool (Shared n size threads workers) (ThreadLocal n threads workers)}
  {a : Σ t : ThreadId threads workers, ThreadAct threads workers t}

/-! ### The steps that are taken -/

/-- The `pread` of a worker reads something, and the worker takes back a packet that it has
sent. -/
def Regular : (Σ t : ThreadId threads workers, ThreadAct threads workers t) →
    Pool (Shared n size threads workers) (ThreadLocal n threads workers) → Prop
  | ⟨.inl _, _⟩, _ => True
  | ⟨.inr j, k⟩, p => 0 < k ∧ OwnAck j (p.threads (.inr j)) p.shared.channels

/-- The step is one of a call that has begun, or of a worker, and no spurious wake-up. -/
def Forward : (Σ t : ThreadId threads workers, ThreadAct threads workers t) →
    Pool (Shared n size threads workers) (ThreadLocal n threads workers) → Prop
  | ⟨.inl t, b⟩, p => (p.threads (.inl t)).pc ≠ .out ∧ b.spurious = false
  | ⟨.inr j, k⟩, p => Regular ⟨.inr j, k⟩ p

/-- A forward step is a regular one. -/
theorem Forward.regular (h : Forward a p) :
  Regular a p
  := by
  obtain ⟨t, b⟩ := a
  cases t with
  | inl t => trivial
  | inr j => exact h

/-! ### What keeps the threads going -/

/-- Neither process has ended, the packets ask for segments that exist, and a worker that serves a
request has its segment. -/
structure Alive (p : Pool (Shared n size threads workers) (ThreadLocal n threads workers)) :
    Prop where
  proxy : p.shared.exited = false
  cache : p.shared.channels.exited = false
  index : ∀ pkt ∈ p.shared.channels.ctrl, ∃ i : Fin n, pkt.segmentIndex = i
  looking : ∀ j, (p.threads (.inr j)).pc = .lookup →
    ∃ i : Fin n, (p.threads (.inr j)).thrPkt.segmentIndex = i
  serving : ∀ j, (p.threads (.inr j)).pc ≠ .wait → (p.threads (.inr j)).pc ≠ .lookup →
    (p.threads (.inr j)).pc ≠ .failed ∧ ∃ i, (p.threads (.inr j)).seg = some i

theorem Alive.start (request : HandleRequest) (pkt : Packet) :
  Alive (start request pkt : Pool (Shared n size threads workers) _)
  where
  proxy := rfl
  cache := rfl
  index pkt h := by cases h
  looking j h := by cases h
  serving j h := absurd rfl h

/-- A worker that is asked for a segment that exists serves the request. -/
theorem Task.lookup_serves {num : ℕ} {w : Task n} {i : Fin n}
    (hfiles : ∀ path file, get path = some file → 0 < file.length ∧ file.length < 2 ^ 31)
    (hindex : w.thrPkt.segmentIndex = i) :
  (w.lookup get num size).pc ≠ .wait ∧ (w.lookup get num size).pc ≠ .failed ∧
    (w.lookup get num size).seg = some i
  := by
  have hsegment : findSegment n (w.thrPkt.received num size).segmentIndex = some i := by
    rw [show (w.thrPkt.received num size).segmentIndex = i from hindex]
    apply findSegment_val
  unfold Task.lookup Task.fill
  simp only [hsegment]
  cases hkey : get (w.thrPkt.received num size).key with
  | none => simp
  | some file =>
      obtain ⟨hpos, hle⟩ := hfiles _ file hkey
      have hmod : file.length % 2 ^ 32 > 0 := by
        rw [Nat.mod_eq_of_lt (by omega)]
        exact hpos
      dsimp only
      rw [if_pos hmod]
      simp

/-- Only a pop of an empty queue ends the proxy. -/
theorem ProxyStep.exited {t : ThreadId threads workers} {b : ProxyAct}
    {s s' : Shared n size threads workers} {x x' : Proxy n} (h : ProxyStep t b s x s' x')
    (hfound : x.pc = .pop → s.segQueue ≠ []) :
  s'.exited = s.exited
  := by
  cases h with
  | underflow pc hq => exact absurd hq (hfound pc)
  | out | lock | empty | found | wait | spurious | awake | pop | unlock | done | request
  | lockRelease | push | signal | unlockRelease => rfl

/-- Every step of a proxy thread keeps the threads going. -/
theorem Alive.proxy_step {t : Fin threads} {b : ProxyAct} (h : Alive p) (ht : Transfers get p)
    (hs : Pool.step (code get) ⟨.inl t, b⟩ p = some p') :
  Alive p'
  := by
  have hstep := handleWithCache_cases (Pool.step_own hs)
  have hworker : ∀ j, p'.threads (.inr j) = p.threads (.inr j) :=
    fun j => Pool.step_other hs Sum.inr_ne_inl
  have hchannels : p'.shared.channels.exited = false ∧
      ∀ pkt ∈ p'.shared.channels.ctrl, ∃ i : Fin n, pkt.segmentIndex = i := by
    obtain ⟨hc, -⟩ | ⟨i, r, hpc, -, -, hrequest⟩ := hstep.concerned
    · rw [hc]
      exact ⟨h.cache, h.index⟩
    · obtain ⟨hsend, hc, -⟩ | ⟨seg', -, hc⟩ := handleRequest_cases hrequest
      · obtain ⟨-, hasks⟩ := (ht.calls t).begins i hpc hsend
        rw [hc]
        refine ⟨h.cache, ?_⟩
        intro pkt hpkt
        obtain hold | hlast := List.mem_append.mp hpkt
        · exact h.index pkt hold
        · rw [List.mem_singleton.mp hlast]
          exact ⟨i, hasks.index⟩
      · rw [hc]
        exact ⟨h.cache, h.index⟩
  constructor
  case proxy => rw [hstep.exited (ht.segments.found t), h.proxy]
  case cache => exact hchannels.1
  case index => exact hchannels.2
  case looking =>
    intro j
    rw [hworker]
    exact h.looking j
  case serving =>
    intro j
    rw [hworker]
    exact h.serving j

/-- Every regular step of a worker keeps the threads going. -/
theorem Alive.task_step {j : Fin workers} {k : ℕ}
    (hfiles : ∀ path file, get path = some file → 0 < file.length ∧ file.length < 2 ^ 31)
    (h : Alive p) (hk : 0 < k) (hs : Pool.step (code get) ⟨.inr j, k⟩ p = some p') :
  Alive p'
  := by
  obtain ⟨hstep, hshared⟩ := code_worker (Pool.step_own hs)
  obtain ⟨-, hmove⟩ := performTask_cases hstep
  have hworker : ∀ u, u ≠ j → p'.threads (.inr u) = p.threads (.inr u) :=
    fun u hu => Pool.step_other hs fun he => hu (Sum.inr.inj he)
  have hown : p'.shared.channels.exited = false ∧
      (∀ pkt ∈ p'.shared.channels.ctrl, pkt ∈ p.shared.channels.ctrl) ∧
      ((p'.threads (.inr j)).pc = .lookup →
        ∃ i : Fin n, (p'.threads (.inr j)).thrPkt.segmentIndex = i) ∧
      ((p'.threads (.inr j)).pc ≠ .wait → (p'.threads (.inr j)).pc ≠ .lookup →
        (p'.threads (.inr j)).pc ≠ .failed ∧ ∃ i, (p'.threads (.inr j)).seg = some i) := by
    by_cases hwait : (p.threads (.inr j)).pc = .wait
    · obtain ⟨pkt, ctrl, ⟨hfirst, hc⟩, hw⟩ := hmove.of_wait hwait
      rw [hc, hw]
      refine ⟨h.cache, ?_, ?_, ?_⟩
      · intro pkt' hpkt
        rw [hfirst]
        exact List.mem_cons_of_mem _ hpkt
      · intro _
        apply h.index
        rw [hfirst]
        exact List.mem_cons_self
      · intro _ hlookup
        exact absurd rfl hlookup
    · by_cases hlookup : (p.threads (.inr j)).pc = .lookup
      · obtain ⟨hc, hw⟩ := hmove.of_lookup hlookup
        obtain ⟨i, hindex⟩ := h.looking j hlookup
        obtain ⟨-, hfailed, hseg⟩ := @Task.lookup_serves _ size _ j _ _ hfiles hindex
        rw [hc, hw]
        refine ⟨decide_eq_false hfailed, fun _ hpkt => hpkt, ?_, fun _ _ => ⟨hfailed, i, hseg⟩⟩
        intro hpc
        exact absurd hpc Task.lookup_pc
      · obtain ⟨i, seg', hseg, hbody, hok, hc⟩ := hmove.of_body hwait hlookup
        rw [hc]
        refine ⟨decide_eq_false (hok hk), fun _ hpkt => hpkt, ?_, ?_⟩
        · intro hpc
          exact absurd hpc hbody.pc.2.2
        · intro _ _
          exact ⟨hok hk, i, hbody.seg.trans hseg⟩
  constructor
  case proxy =>
    rw [hshared]
    exact h.proxy
  case cache => exact hown.1
  case index => exact fun pkt hpkt => h.index pkt (hown.2.1 pkt hpkt)
  case looking =>
    intro u
    by_cases hu : u = j
    · subst hu
      exact hown.2.2.1
    · rw [hworker u hu]
      exact h.looking u
  case serving =>
    intro u
    by_cases hu : u = j
    · subst hu
      exact hown.2.2.2
    · rw [hworker u hu]
      exact h.serving u

/-! ### A step that is possible -/

/-- What a step gets when nothing comes from outside. -/
def ProxyAct.plain : ProxyAct where
  path := []
  behind := []
  pkt := ⟨⟨[], 0, 0, 0, 0, 0⟩, 0⟩
  answer := 0
  spurious := false

/-- A proxy thread can go on when the mutex is free where it takes it, and `handle_request` can go
on where it calls it. -/
theorem handleWithCache_isSome {t : ThreadId threads workers} {s : Shared n size threads workers}
    {x : Proxy n} (hrun : s.exited = false)
    (hfree : x.pc = .lock ∨ x.pc = .blocked ∨ (∃ i, x.pc = .lockRelease i) →
      s.segMutex.owner = none)
    (hawake : x.pc = .blocked → t ∉ s.segCond.blocked)
    (hrequest : ∀ i, x.pc = .request i → x.request.pc ≠ .done →
      (handleRequest i 0 s.channels x.request).isSome = true) :
  (handleWithCache t .plain s x).isSome = true
  := by
  have hlock : s.segMutex.owner = none → (s.segMutex.lock t).isSome = true := by
    intro hnone
    simp [Mutex.lock, hnone]
  unfold handleWithCache
  rw [if_neg (by simp [hrun])]
  cases hpc : x.pc with
  | lock =>
      dsimp only
      rw [Option.isSome_map]
      exact hlock (hfree (.inl hpc))
  | lockRelease i =>
      dsimp only
      rw [Option.isSome_map]
      exact hlock (hfree (.inr (.inr ⟨i, hpc⟩)))
  | blocked =>
      dsimp only
      rw [if_neg (by simp [ProxyAct.plain]), Option.isSome_map, Condition.awake,
        if_neg (hawake hpc)]
      exact hlock (hfree (.inr (.inl hpc)))
  | pop =>
      dsimp only
      split
      · rfl
      · rfl
  | request i =>
      dsimp only
      by_cases hdone : x.request.pc = .done
      · rw [if_pos hdone]
        rfl
      · rw [if_neg hdone, Option.isSome_map]
        exact hrequest i hpc hdone
  | out | test | wait | unlock | push | signal | unlockRelease => rfl

/-- A proxy thread that can go on can take a forward step. -/
theorem forward_proxy {t : Fin threads} (hout : (p.threads (.inl t)).pc ≠ .out)
    (h : (handleWithCache (.inl t) .plain p.shared (p.threads (.inl t))).isSome = true) :
  ∃ a, Forward a p ∧ (Pool.step (code get) a p).isSome = true
  := ⟨⟨.inl t, ProxyAct.plain⟩, ⟨hout, rfl⟩, Pool.step_isSome h⟩

/-- A worker that can go on, with its own packet, can take a forward step. -/
theorem forward_worker {j : Fin workers} (hown : OwnAck j (p.threads (.inr j)) p.shared.channels)
    (h : (performTask get j 1 p.shared.channels (p.threads (.inr j))).isSome = true) :
  ∃ a, Forward a p ∧ (Pool.step (code get) a p).isSome = true
  := by
  refine ⟨⟨.inr j, (1 : ℕ)⟩, ⟨one_pos, hown⟩, Pool.step_isSome ?_⟩
  simp only [code, Option.isSome_map]
  exact h

/-- The first packet for a worker in the exchange is one that it has sent. -/
theorem Phase.own_ack {num : ℕ} {base : Packet} {file : List UInt8} {r : HandleRequest}
    {w : Task n} {seg : Segment size} (ha : Answers size num file base)
    (hp : Phase base file r w seg) :
  ∀ pkt ∈ seg.proxyToCache.head?, pkt.worker = num
  := by
  cases hp with
  | acked k c m pc chunk filled rpc given toProxy toCache =>
      rw [toCache]
      intro pkt hpkt
      cases hpkt
      exact ha.worker
  | hit _ _ _ _ _ toCache | pread _ _ _ _ _ _ _ _ toCache
  | sendData _ _ _ _ _ _ _ _ _ _ _ toCache | queued _ _ _ _ _ _ _ _ _ _ toCache
  | taken _ _ _ _ _ _ _ _ _ _ _ toCache | given _ _ _ _ _ _ _ _ _ _ toCache
  | finished _ _ _ _ _ _ toCache =>
      rw [toCache]
      intro pkt hpkt
      cases hpkt

variable {i : Fin n} {t : Fin threads} {j : Fin workers}

theorem proxyOn_eq_some {x y : Proxy n} (h : proxyOn i x = some y) :
  x = y ∧ x.On i
  := by
  unfold proxyOn at h
  split at h
  · rename_i hon
    exact ⟨Option.some.inj h, hon⟩
  · cases h

theorem taskOn_eq_some {w v : Task n} (h : taskOn i w = some v) :
  w = v ∧ w.On i
  := by
  unfold taskOn at h
  split at h
  · rename_i hon
    exact ⟨Option.some.inj h, hon⟩
  · cases h

/-- The proxy thread in the exchange goes on when its step of `handle_request` is possible. -/
theorem Alive.forward_request (h : Alive p) (hon : (p.threads (.inl t)).On i)
    (hsome : (handleRequest i 0 p.shared.channels (p.threads (.inl t)).request).isSome = true) :
  ∃ a, Forward a p ∧ (Pool.step (code get) a p).isSome = true
  := by
  apply forward_proxy (t := t)
  · simp [hon.1]
  · apply handleWithCache_isSome h.proxy
    · simp [hon.1]
    · simp [hon.1]
    · intro i' hpc _
      rw [hon.1] at hpc
      cases hpc
      exact hsome

/-- A worker that waits for its last packet takes it when this is the first one. -/
theorem Alive.forward_late (h : Alive p) {pkt : Packet} {rest : Mq} {w : Task n}
    (hfirst : (p.shared.channels.segments i).proxyToCache = pkt :: rest) (hworker : pkt.worker = j)
    (hw : taskOn i (p.threads (.inr j)) = some w) (hwaits : Waits pkt w) :
  ∃ a, Forward a p ∧ (Pool.step (code get) a p).isSome = true
  := by
  obtain ⟨rfl, hon⟩ := taskOn_eq_some hw
  have hpc := hwaits.pc
  obtain ⟨-, hseg⟩ := (Task.on_of_ne (by simp [hpc])).mp hon
  apply forward_worker (j := j)
  · intro _ i' hseg' pkt' hpkt'
    rw [hseg] at hseg'
    cases hseg'
    rw [hfirst] at hpkt'
    cases hpkt'
    exact hworker
  · apply performTask_isSome h.cache hseg (by simp [hpc]) (by simp [hpc]) (by simp [hpc])
      (fun _ hack => absurd hpc hack) (by simp [hpc])
    intro _
    rw [hfirst]
    exact List.cons_ne_nil _ _

/-- Behind no other packets, the request of the exchange is still in the control queue and has no
worker, or the proxy thread or its worker can take a forward step. -/
theorem Alive.forward_exchange (h : Alive p) {x : Proxy n} {partner : Option (Fin workers × Task n)}
    (hx : proxyOn i (p.threads (.inl t)) = some x)
    (hw : ∀ j w, partner = some (j, w) → taskOn i (p.threads (.inr j)) = some w)
    (hexchange : Exchange get i (requests i p.shared.channels) (p.shared.channels.segments i)
      (some x) partner) :
  (partner = none ∧ p.shared.channels.ctrl ≠ []) ∨
    ∃ a, Forward a p ∧ (Pool.step (code get) a p).isSome = true
  := by
  obtain ⟨rfl, hon⟩ := proxyOn_eq_some hx
  cases hexchange with
  | requested asks unanswered request =>
      refine Or.inl ⟨rfl, ?_⟩
      intro hnil
      rw [requests, hnil] at request
      cases request
  | looking asks unanswered noRequest toProxy toCache =>
      right
      rename_i req j
      obtain ⟨hthread, -⟩ := taskOn_eq_some (hw j _ rfl)
      apply forward_worker (j := j)
      · rw [hthread]
        intro hpc
        cases hpc
      · rw [hthread]
        exact performTask_isSome_lookup h.cache rfl
  | serving asks requests segment busy phase noRequest =>
      right
      rename_i req file j w
      obtain ⟨rfl, -⟩ := taskOn_eq_some (hw j w rfl)
      have hlookup := phase.worker_pc
      have hwait : (p.threads (.inr j)).pc ≠ .wait := fun hpc => busy (phase.done_of_wait hpc)
      obtain ⟨hfailed, -⟩ := h.serving j hwait hlookup
      obtain hpc | hsome | hsome := phase.enabled get requests.answers h.cache segment hfailed
      · exact absurd hpc hwait
      · exact h.forward_request hon hsome
      · apply forward_worker (j := j) _ hsome
        intro _ i' hseg'
        rw [segment] at hseg'
        cases hseg'
        exact phase.own_ack requests.answers
  | miss absent unanswered pc segment cacheHit noRequest toProxy toCache =>
      right
      rename_i j w
      obtain ⟨rfl, -⟩ := taskOn_eq_some (hw j w rfl)
      apply forward_worker (j := j)
      · intro hack
        rw [pc] at hack
        cases hack
      · apply performTask_isSome h.cache segment (by simp [pc]) (by simp [pc]) (by simp [pc]) _
          (by simp [pc]) (by simp [pc])
        intro _ _
        rw [toProxy]
        decide
  | missed absent unanswered cacheHit noRequest toProxy toCache =>
      right
      have hpc := unanswered.pc
      apply h.forward_request hon
      apply handleRequest_isSome (by simp [hpc]) (by simp [hpc]) _ (by simp [hpc])
      intro _
      rw [toProxy]
      exact List.cons_ne_nil _ _
  | unknown absent pc cacheHit noRequest toProxy toCache =>
      right
      apply h.forward_request hon
      exact handleRequest_isSome (by simp [pc]) (by simp [pc]) (by simp [pc]) (by simp [pc])

/-- When something goes on on a segment, its request is still in the control queue and no worker is
on the segment, or one of the threads that it concerns can take a forward step. -/
theorem Alive.forward_segment (h : Alive p) (ht : Transfers get p)
    (hon : (∃ t, (p.threads (.inl t)).On i) ∨ ∃ j, (p.threads (.inr j)).On i) :
  ((∀ j, ¬ (p.threads (.inr j)).On i) ∧ p.shared.channels.ctrl ≠ []) ∨
    ∃ a, Forward a p ∧ (Pool.step (code get) a p).isSome = true
  := by
  obtain ⟨old, cur, proxy, partner, hmode⟩ := ht.modes i
  have hlate := hmode.late
  have hexchange := hmode.exchange
  cases hold : old with
  | cons pkt rest =>
      right
      obtain ⟨j, w, hworker, hw, hwaits⟩ := hlate.waits pkt (by rw [hold]; exact List.mem_cons_self)
      exact h.forward_late (by rw [hmode.toCache, hold, List.cons_append]) hworker
        (without_eq_some hw).1 hwaits
  | nil =>
      have hcur : (p.shared.channels.segments i).proxyToCache = cur := by
        rw [hmode.toCache, hold, List.nil_append]
      rw [← hcur] at hexchange
      cases proxy with
      | some y =>
          obtain ⟨t, x⟩ := y
          have hconcerned := congrFun hmode.concerned t
          rw [single, Function.update_self] at hconcerned
          obtain ⟨rfl, hctrl⟩ | hforward := h.forward_exchange hconcerned hmode.task hexchange
          · left
            refine ⟨?_, hctrl⟩
            intro j hon
            rw [hold] at hlate
            have hnone : taskOn i (p.threads (.inr j)) = none := hlate.nil j
            rw [taskOn, if_pos hon] at hnone
            cases hnone
          · exact Or.inr hforward
      | none =>
          exfalso
          rw [Option.map_none] at hexchange
          cases hexchange with
          | quiet =>
              obtain ⟨t, hon⟩ | ⟨j, hon⟩ := hon
              · have hconcerned := congrFun hmode.concerned t
                simp only [proxyOn, if_pos hon] at hconcerned
                cases hconcerned
              · rw [hold] at hlate
                have hnone : taskOn i (p.threads (.inr j)) = none := hlate.nil j
                rw [taskOn, if_pos hon] at hnone
                cases hnone

/-- When a packet is in the control queue, some thread can take a forward step: a worker that
waits takes it, and one that does not wait serves another request. -/
theorem Alive.forward_ctrl (h : Alive p) (ht : Transfers get p) (hworkers : 0 < workers)
    (hctrl : p.shared.channels.ctrl ≠ []) :
  ∃ a, Forward a p ∧ (Pool.step (code get) a p).isSome = true
  := by
  by_cases hwait : (p.threads (.inr ⟨0, hworkers⟩)).pc = .wait
  · apply forward_worker (j := ⟨0, hworkers⟩)
    · intro hack
      rw [hwait] at hack
      cases hack
    · exact performTask_isSome_wait h.cache hwait hctrl
  · by_cases hlookup : (p.threads (.inr ⟨0, hworkers⟩)).pc = .lookup
    · apply forward_worker (j := ⟨0, hworkers⟩)
      · intro hack
        rw [hlookup] at hack
        cases hack
      · exact performTask_isSome_lookup h.cache hlookup
    · obtain ⟨-, i, hseg⟩ := h.serving ⟨0, hworkers⟩ hwait hlookup
      have hon : (p.threads (.inr ⟨0, hworkers⟩)).On i :=
        (Task.on_of_ne hlookup).mpr ⟨hwait, hseg⟩
      obtain ⟨hoff, -⟩ | hforward := h.forward_segment ht (Or.inr ⟨_, hon⟩)
      · exact absurd hon (hoff _)
      · exact hforward

/-- When a proxy thread is in `handle_request`, some thread can take a forward step. -/
theorem Alive.forward_call (h : Alive p) (ht : Transfers get p) (hworkers : 0 < workers)
    (hpc : (p.threads (.inl t)).pc = .request i) :
  ∃ a, Forward a p ∧ (Pool.step (code get) a p).isSome = true
  := by
  by_cases hctrl : p.shared.channels.ctrl = []
  · by_cases hon : (p.threads (.inl t)).On i
    · obtain ⟨-, hne⟩ | hforward := h.forward_segment ht (Or.inl ⟨t, hon⟩)
      · exact absurd hctrl hne
      · exact hforward
    · -- The request has not been sent, or it is done.
      apply forward_proxy (t := t)
      · simp [hpc]
      · apply handleWithCache_isSome h.proxy
        · simp [hpc]
        · simp [hpc]
        · intro i' hpc' hbusy
          rw [hpc] at hpc'
          cases hpc'
          apply handleRequest_isSome_send
          · by_contra hsend
            exact hon ⟨hpc, hsend, hbusy⟩
          · rw [hctrl]
            decide
  · exact h.forward_ctrl ht hworkers hctrl

/-- When a proxy thread is inside the section of the mutex, it can go on. -/
theorem Alive.forward_inside (h : Alive p) (hin : (p.threads (.inl t)).pc.Inside) :
  ∃ a, Forward a p ∧ (Pool.step (code get) a p).isSome = true
  := by
  apply forward_proxy (t := t)
  · intro hpc
    rw [hpc] at hin
    exact hin
  · apply handleWithCache_isSome h.proxy
    · intro hpc
      obtain hpc | hpc | ⟨i, hpc⟩ := hpc
      · rw [hpc] at hin
        exact hin.elim
      · rw [hpc] at hin
        exact hin.elim
      · rw [hpc] at hin
        exact hin.elim
    · intro hpc
      rw [hpc] at hin
      exact hin.elim
    · intro i hpc
      rw [hpc] at hin
      exact hin.elim

/-- When no thread holds a segment, all of them are in the queue. -/
theorem Segments.length (h : Segments p) (hheld : ∀ t, held t (p.threads t) = none) :
  p.shared.segQueue.length = n
  := by
  have htaken : ∀ t, taken t (p.threads t) = 0 := by
    intro t
    rw [taken, hheld t]
    rfl
  have hcard := congrArg Multiset.card h.conserved
  rw [Finset.sum_congr rfl fun t _ => htaken t, Finset.sum_const_zero, add_zero,
    Multiset.coe_card, Multiset.coe_card, List.length_finRange] at hcard
  exact hcard

/-- When every thread that is in a call is at its wait, one of them has been woken up: all segments
are in the queue. -/
theorem Waiting.awake (h : Waiting p) (hp : Segments p) (hn : 0 < n)
    (hpc : ∀ t, (p.threads (.inl t)).pc = .out ∨ (p.threads (.inl t)).pc = .blocked)
    (hout : (p.threads (.inl t)).pc ≠ .out) :
  ∃ t, (p.threads (.inl t)).pc = .blocked ∧ .inl t ∉ p.shared.segCond.blocked
  := by
  by_contra hnone
  have hall : ∀ t, (p.threads (.inl t)).pc = .blocked → .inl t ∈ p.shared.segCond.blocked := by
    intro t ht
    by_contra hmem
    exact hnone ⟨t, ht, hmem⟩
  have hmem := hall t ((hpc t).resolve_left hout)
  have hsignalled := h.signalled (List.ne_nil_of_mem hmem)
  have hle : ∑ t, attention t (p.threads t) ≤ p.shared.segCond.blocked.length := by
    apply sum_le_blocked
    · intro t
      cases t with
      | inl t =>
          obtain ht | ht := hpc t
          · simp [attention, ht, ProxyPc.attention]
          · simp [attention, ht, ProxyPc.attention]
      | inr j => exact Nat.zero_le 1
    · intro t hne
      cases t with
      | inl t =>
          apply hall t ((hpc t).resolve_left _)
          intro ht
          simp [attention, ht, ProxyPc.attention] at hne
      | inr j => exact absurd rfl hne
  have hlength : p.shared.segQueue.length = n := by
    apply hp.length
    intro t
    cases t with
    | inl t =>
        obtain ht | ht := hpc t
        · simp [held, ht, ProxyPc.held]
        · simp [held, ht, ProxyPc.held]
    | inr j => rfl
  omega

/-- As long as a call has not returned, some thread can take a forward step. -/
theorem Alive.enabled (h : Alive p) (ht : Transfers get p) (hw : Waiting p) (hn : 0 < n)
    (hworkers : 0 < workers) (hout : (p.threads (.inl t)).pc ≠ .out) :
  ∃ a, Forward a p ∧ (Pool.step (code get) a p).isSome = true
  := by
  by_cases hrequest : ∃ (u : Fin threads) (i : Fin n), (p.threads (.inl u)).pc = .request i
  · obtain ⟨u, i, hpc⟩ := hrequest
    exact h.forward_call ht hworkers hpc
  by_cases hinside : ∃ u : Fin threads, (p.threads (.inl u)).pc.Inside
  · obtain ⟨u, hin⟩ := hinside
    exact h.forward_inside hin
  -- The mutex is free, so that a thread that takes it can go on.
  have hfree : p.shared.segMutex.owner = none := by
    apply ht.segments.owned.free
    intro u hu
    cases u with
    | inl u => exact hinside ⟨u, hu⟩
    | inr j => exact hu
  by_cases hlock : ∃ u : Fin threads, (p.threads (.inl u)).pc = .lock ∨
      ∃ i, (p.threads (.inl u)).pc = .lockRelease i
  · obtain ⟨u, hu⟩ := hlock
    have hne : (p.threads (.inl u)).pc ≠ .out ∧ (p.threads (.inl u)).pc ≠ .blocked := by
      obtain hpc | ⟨i, hpc⟩ := hu
      · simp [hpc]
      · simp [hpc]
    apply forward_proxy hne.1
    apply handleWithCache_isSome h.proxy (fun _ => hfree) (fun hpc => absurd hpc hne.2)
    intro i hpc
    exact absurd ⟨u, i, hpc⟩ hrequest
  · have hpc : ∀ u, (p.threads (.inl u)).pc = .out ∨ (p.threads (.inl u)).pc = .blocked := by
      intro u
      cases hu : (p.threads (.inl u)).pc with
      | out => exact Or.inl rfl
      | blocked => exact Or.inr rfl
      | lock => exact absurd ⟨u, Or.inl hu⟩ hlock
      | lockRelease i => exact absurd ⟨u, Or.inr ⟨i, hu⟩⟩ hlock
      | request i => exact absurd ⟨u, i, hu⟩ hrequest
      | test | wait | pop | unlock | push | signal | unlockRelease =>
          exfalso
          apply hinside
          use u
          rw [hu]
          trivial
    obtain ⟨u, hu, hmem⟩ := hw.awake ht.segments hn hpc hout
    apply forward_proxy (t := u)
    · simp [hu]
    · apply handleWithCache_isSome h.proxy (fun _ => hfree) (fun _ => hmem)
      simp [hu]

end GetFile.Cache
