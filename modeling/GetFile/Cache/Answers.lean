import GetFile.Cache.Transfers

/-!
# The answers to all calls

A call of `handle_with_cache` for a path that is not in the cache is answered with
`GF_FILE_NOT_FOUND` and nothing else, whatever goes on on the other segments and whichever workers
still wait on the segment of the call (`Refusing`). With the transfers of the files this says what
every call is answered (`calls_answered`).
-/

namespace GetFile.Cache

open CString Transition

variable {n size threads workers : ℕ} {get : List UInt8 → Option (List UInt8)}
  {i : Fin n} {seg seg' : Segment size} {t : Fin threads} {x x' : Proxy n} {j : Fin workers}
  {w w' : Task n} {c c' : Channels n size} {r r' : HandleRequest} {tasks : Fin workers → Task n}

/-- No file in the cache has the name in the packet, when a worker has received it. -/
def NoFile (get : List UInt8 → Option (List UInt8)) (size : ℕ) (pkt : Packet) : Prop :=
  ∀ num, get (pkt.received num size).key = none

/-- The path of the call is not in the cache, and it is shorter than the array in the packet. -/
structure Proxy.Absent (get : List UInt8 → Option (List UInt8)) (x : Proxy n) : Prop where
  absent : get x.path = none
  short : x.path.length < maxRequestLen

/-- The answer is that there is no such file, and no bytes have been sent. -/
structure Refused (header : Option (Status × ℕ)) (sent : List UInt8) : Prop where
  header : header = some (.fileNotFound, 0)
  sent : sent = []

/-- The calls of a proxy thread for paths that are not in the cache are refused, and the packet of
one that begins names no file. -/
structure Asked (get : List UInt8 → Option (List UInt8)) (size : ℕ) (x : Proxy n) : Prop where
  returned : ∀ call ∈ x.calls, get call.path = none → call.path.length < maxRequestLen →
    Refused call.header call.sent
  finished : x.Finished → x.Absent get → Refused x.request.header x.request.sent
  begins : ∀ i, x.pc = .request i → x.request.pc = .send → x.Absent get →
    NoFile get size x.request.thrPkt

/-- On segment `i` a call for a path that is not in the cache goes on, with `handle_request` in the
state `r`: every packet for the segment leads to the answer that there is no such file, and the
workers that have served earlier requests only wait for their last packets. -/
structure Refusing (get : List UInt8 → Option (List UInt8)) (i : Fin n) (c : Channels n size)
    (tasks : Fin workers → Task n) (r : HandleRequest) : Prop where
  requests : ∀ pkt ∈ requests i c, NoFile get size pkt
  tasks : ∀ j, (tasks j).On i → (tasks j).pc = .lookup ∧ NoFile get size (tasks j).thrPkt ∨
    (tasks j).pc = .miss ∧ (tasks j).thrPkt.cacheHit = 0 ∨ (tasks j).pc = .ack
  toProxy : ∀ pkt ∈ (c.segments i).cacheToProxy, pkt.cacheHit = 0
  waits : r.pc = .filesize ∨ r.pc = .header ∧ r.thrPkt.cacheHit = 0
  chunks : r.chunks = []

/-! ### The workers that wait -/

/-- While a worker waits for a packet and the proxy has not yet announced the file, the answer with
the length is on its way to the proxy, or the proxy has just taken it. -/
theorem Phase.answer {base : Packet} {file : List UInt8} (hp : Phase base file r w seg)
    (hpc : w.pc = .ack) (hwaits : r.pc = .filesize ∨ r.pc = .header) :
  base ∈ seg.cacheToProxy ∨ r.pc = .header ∧ r.thrPkt = base
  := by
  cases hp with
  | queued k c m q _ _ _ _ front toProxy =>
      cases front with
      | filesize unanswered =>
          left
          rw [toProxy]
          exact List.mem_cons_self
      | header pc thrPkt =>
          right
          exact ⟨pc, thrPkt⟩
      | data pc => simp [pc] at hwaits
  | taken _ _ _ _ _ _ _ rpc | given _ _ _ _ _ _ rpc => simp [rpc] at hwaits
  | acked k c m _ _ _ rpc =>
      by_cases hlt : k + m < file.length
      · simp [rpc, hlt] at hwaits
      · simp [rpc, hlt] at hwaits
  | hit pc | sendData _ _ _ _ pc | finished _ pc => simp [hpc] at pc
  | pread _ _ _ pc => simp [hpc] at pc

/-- The worker that serves a call without a file does not wait for packets. -/
theorem Exchange.partner_ne_ack {ctrl : Mq} (h : Exchange get i ctrl seg (some x) (some (j, w)))
    (htoProxy : ∀ pkt ∈ seg.cacheToProxy, pkt.cacheHit = 0)
    (hwaits : x.request.pc = .filesize ∨ x.request.pc = .header ∧ x.request.thrPkt.cacheHit = 0) :
  w.pc ≠ .ack
  := by
  intro hpc
  cases h with
  | looking => cases hpc
  | @serving _ req file _ _ asks requests segment busy phase noRequest =>
      have hanswers := requests.answers
      have hwaits' : x.request.pc = .filesize ∨ x.request.pc = .header :=
        hwaits.imp_right And.left
      obtain hmem | ⟨hheader, hbase⟩ := phase.answer hpc hwaits'
      · exact hanswers.cacheHit (htoProxy _ hmem)
      · obtain hfilesize | ⟨-, hmiss⟩ := hwaits
        · rw [hheader] at hfilesize
          cases hfilesize
        · rw [hbase] at hmiss
          exact hanswers.cacheHit hmiss
  | miss _ _ pc => simp [hpc] at pc

section

variable {ctrl : Mq} {proxies : Fin threads → Option (Proxy n)}
  {waiting : Fin workers → Option (Task n)}

/-- While a call without a file goes on, a worker that gets a packet back waits for the next
request. -/
theorem InMode.ack_waits (h : InMode get i ctrl seg proxies waiting) (hx : proxies t = some x)
    (hw : waiting j = some w) (hpc : w.pc = .ack) (hs : Task.Step j seg w seg' w')
    (hown : ∀ pkt rest, seg.proxyToCache = pkt :: rest → pkt.worker = j)
    (htoProxy : ∀ pkt ∈ seg.cacheToProxy, pkt.cacheHit = 0)
    (hwaits : x.request.pc = .filesize ∨ x.request.pc = .header ∧ x.request.thrPkt.cacheHit = 0) :
  w'.pc = .wait
  := by
  obtain ⟨old, cur, proxy, partner, hmode⟩ := h
  obtain rfl := hmode.proxy_eq hx
  obtain rfl | ⟨pkt, hpkt, -, -⟩ := hmode.task_cases hw
  · exact absurd hpc (hmode.exchange.partner_ne_ack htoProxy hwaits)
  · obtain ⟨first, rest, rfl⟩ := List.exists_cons_of_ne_nil (List.ne_nil_of_mem hpkt)
    have hfirst := hown first (rest ++ cur) hmode.toCache
    exact (hmode.take hw hfirst hs).1

/-- When no proxy thread is concerned, there are no packets for it, and the workers wait for their
last packets. -/
theorem InMode.idle (h : InMode get i ctrl seg proxies waiting) (hnone : proxies = fun _ => none) :
  ctrl = [] ∧ seg.cacheToProxy = [] ∧ ∀ j w, waiting j = some w → w.pc = .ack
  := by
  obtain ⟨old, cur, proxy, partner, hmode⟩ := h
  have hexchange := hmode.exchange
  cases proxy with
  | some y =>
      have hsome : proxies y.1 = some y.2 := by
        rw [hmode.concerned, single, Function.update_self]
      rw [hnone] at hsome
      cases hsome
  | none =>
      rw [Option.map_none] at hexchange
      cases hexchange with
      | quiet noRequest toProxy toCache =>
          refine ⟨noRequest, toProxy, ?_⟩
          intro j w hw
          obtain hpartner | ⟨pkt, -, -, hwaits⟩ := hmode.task_cases hw
          · cases hpartner
          · exact hwaits.pc

end

/-! ### The steps of the workers -/

/-- A worker takes a packet out of the control queue. -/
theorem Refusing.receive (h : Refusing get i c tasks r) {pkt : Packet} {ctrl : Mq}
    (hfirst : c.ctrl = pkt :: ctrl) (j : Fin workers) :
  Refusing get i { c with ctrl } (Function.update tasks j (Task.request pkt)) r
  := by
  have hmem : ∀ pkt' ∈ pkt :: ctrl, pkt'.segmentIndex = i → NoFile get size pkt' := by
    intro pkt' hpkt' hindex
    apply h.requests
    rw [Cache.requests, hfirst]
    exact List.mem_filter.mpr ⟨hpkt', by simpa using hindex⟩
  refine ⟨?_, ?_, h.toProxy, h.waits, h.chunks⟩
  · intro pkt' hpkt'
    obtain ⟨hctrl, hindex⟩ := List.mem_filter.mp hpkt'
    exact hmem pkt' (List.mem_cons_of_mem _ hctrl) (by simpa using hindex)
  · intro j'
    by_cases hj : j' = j
    · subst hj
      rw [Function.update_self]
      intro hon
      left
      exact ⟨rfl, hmem pkt List.mem_cons_self ((Task.on_of_lookup rfl).mp hon)⟩
    · rw [Function.update_of_ne hj]
      exact h.tasks j'

/-- A worker that finds no file gets ready to say so, or it fails. -/
theorem Task.lookup_noFile {num : ℕ} (hfile : NoFile get size w.thrPkt) :
  (w.lookup get num size).pc = .miss ∧ (w.lookup get num size).thrPkt.cacheHit = 0 ∨
    (w.lookup get num size).seg = w.seg
  := by
  unfold Task.lookup Task.fill
  dsimp only
  cases findSegment n (w.thrPkt.received num size).segmentIndex with
  | none =>
      right
      rfl
  | some i =>
      left
      rw [hfile num]
      exact ⟨rfl, rfl⟩

/-- A worker looks the file up. -/
theorem Refusing.lookup (h : Refusing get i c tasks r) (hpc : (tasks j).pc = .lookup)
    (hseg : (tasks j).seg = none) (exited : Bool) :
  Refusing get i { c with exited } (Function.update tasks j ((tasks j).lookup get j size)) r
  := by
  refine ⟨h.requests, ?_, h.toProxy, h.waits, h.chunks⟩
  intro j'
  by_cases hj : j' = j
  · subst hj
    rw [Function.update_self]
    intro hon
    obtain ⟨-, hsome⟩ := (Task.on_of_ne Task.lookup_pc).mp hon
    have hindex := Task.lookup_seg hseg hsome
    obtain ⟨-, hfile⟩ | ⟨hmiss, -⟩ | hack := h.tasks j' ((Task.on_of_lookup hpc).mpr hindex)
    · obtain hmiss | hfailed := Task.lookup_noFile (w := tasks j') hfile
      · right
        left
        exact hmiss
      · rw [hfailed, hseg] at hsome
        cases hsome
    · simp [hpc] at hmiss
    · simp [hpc] at hack
  · rw [Function.update_of_ne hj]
    exact h.tasks j'

/-- A worker takes a step on its segment. -/
theorem Refusing.body (h : Refusing get i c tasks r) {i' : Fin n} (hseg : (tasks j).seg = some i')
    (hs : Task.Step j (c.segments i') (tasks j) seg' w')
    (hack : i' = i → (tasks j).pc = .ack → w'.pc = .wait) (exited : Bool) :
  Refusing get i { c.set i' seg' with exited } (Function.update tasks j w') r
  := by
  obtain ⟨hwait, hlookup, hlookup'⟩ := hs.pc
  have hseg' : w'.seg = some i' := hs.seg.trans hseg
  have htasks : (w'.On i → False) → ∀ j', (Function.update tasks j w' j').On i →
      (Function.update tasks j w' j').pc = .lookup ∧
          NoFile get size (Function.update tasks j w' j').thrPkt ∨
        (Function.update tasks j w' j').pc = .miss ∧
          (Function.update tasks j w' j').thrPkt.cacheHit = 0 ∨
        (Function.update tasks j w' j').pc = .ack := by
    intro hoff j'
    by_cases hj : j' = j
    · subst hj
      rw [Function.update_self]
      exact fun hon => (hoff hon).elim
    · rw [Function.update_of_ne hj]
      exact h.tasks j'
  by_cases hi : i' = i
  · subst hi
    have hquiet : w'.pc = .wait ∧ ∀ pkt ∈ seg'.cacheToProxy, pkt.cacheHit = 0 := by
      obtain ⟨hpc, -⟩ | ⟨hpc, hmiss⟩ | hpc := h.tasks j ((Task.on_of_ne hlookup).mpr ⟨hwait, hseg⟩)
      · exact absurd hpc hlookup
      · cases hs with
        | miss =>
            refine ⟨rfl, ?_⟩
            intro pkt hpkt
            obtain hold | hlast := List.mem_append.mp hpkt
            · exact h.toProxy pkt hold
            · rw [List.mem_singleton.mp hlast]
              exact hmiss
        | hit pc | fail pc | pread _ pc | sendData pc | ack _ _ pc => simp [hpc] at pc
      · refine ⟨hack rfl hpc, ?_⟩
        cases hs with
        | ack => exact h.toProxy
        | miss pc | hit pc | fail pc | pread _ pc | sendData pc => simp [hpc] at pc
    refine ⟨h.requests, htasks ?_, ?_, h.waits, h.chunks⟩
    · rw [Task.on_of_ne hlookup', hquiet.1]
      exact fun hon => hon.1 rfl
    · dsimp only
      rw [Channels.set_self]
      exact hquiet.2
  · refine ⟨h.requests, htasks ?_, ?_, h.waits, h.chunks⟩
    · rw [Task.on_of_ne hlookup', hseg']
      exact fun hon => hi (Option.some.inj hon.2)
    · dsimp only
      rw [Channels.set_other _ _ (Ne.symm hi)]
      exact h.toProxy

/-! ### The steps of the proxy threads -/

/-- A step on another segment does not concern the call. -/
theorem Refusing.frame (h : Refusing get i c tasks r)
    (hrequests : Cache.requests i c' = Cache.requests i c)
    (hseg : c'.segments i = c.segments i) :
  Refusing get i c' tasks r
  := by
  refine ⟨?_, h.tasks, ?_, h.waits, h.chunks⟩
  · rw [hrequests]
    exact h.requests
  · rw [hseg]
    exact h.toProxy

/-- The proxy thread of the call takes the answer, and then it refuses the call. -/
theorem Refusing.proxy_step (h : Refusing get i c tasks r)
    (hs : HandleRequest.Step (c.segments i) r seg' r') :
  r'.pc ≠ .done ∧ Refusing get i (c.set i seg') tasks r' ∨
    r'.pc = .done ∧ Refused r'.header r'.sent
  := by
  have hchunks := h.chunks
  have hwaits := h.waits
  cases hs with
  | filesize pkt rest pc first =>
      left
      have htoProxy := h.toProxy
      rw [first] at htoProxy
      refine ⟨by simp, h.requests, h.tasks, ?_, ?_, hchunks⟩
      · rw [Channels.set_self]
        exact fun pkt' hpkt' => htoProxy pkt' (List.mem_cons_of_mem _ hpkt')
      · right
        exact ⟨rfl, htoProxy pkt List.mem_cons_self⟩
  | miss answer pc miss =>
      right
      refine ⟨rfl, rfl, ?_⟩
      rw [HandleRequest.sent, hchunks]
      rfl
  | hit pc hit =>
      obtain hfilesize | ⟨-, hmiss⟩ := hwaits
      · simp [pc] at hfilesize
      · exact absurd hmiss hit
  | data _ _ pc | gfsSend pc | ack pc => simp [pc] at hwaits

/-- A step of a proxy thread keeps what is known about its calls. -/
theorem Asked.step {t : ThreadId threads workers} {b : ProxyAct}
    {s s' : Shared n size threads workers} (h : Asked get size x) (hpath : ∀ c ∈ x.path, c ≠ 0)
    (hs : ProxyStep t b s x s' x')
    (hrequest : ∀ i, x.pc = .request i → x.request.pc ≠ .done → x'.request.pc = .done →
      x.Absent get → Refused x'.request.header x'.request.sent) :
  Asked get size x'
  := by
  cases hs with
  | out pc | lock pc | empty pc | found pc | wait pc | awake pc | pop _ _ pc =>
      refine ⟨h.returned, False.elim, ?_⟩
      rintro i ⟨⟩
  | spurious pc => exact h
  | underflow pc => exact h
  | unlock i pc =>
      refine ⟨h.returned, ?_, ?_⟩
      · rintro ⟨⟩
      · rintro i' ⟨⟩ - ⟨habsent, hshort⟩ num
        have hkey := @key_initThreadPkt size b.pkt x.path b.behind i num hpath hshort
        exact (congrArg get hkey).trans habsent
  | done i pc done =>
      refine ⟨h.returned, ?_, ?_⟩
      · rintro - ⟨habsent, hshort⟩
        refine h.finished ?_ ⟨habsent, hshort⟩
        rw [Proxy.Finished, pc]
        exact done
      · rintro i' ⟨⟩
  | request i channels r pc busy step =>
      refine ⟨h.returned, ?_, ?_⟩
      · rintro hdone ⟨habsent, hshort⟩
        exact hrequest i pc busy hdone ⟨habsent, hshort⟩
      · rintro i' ⟨⟩ hsend
        obtain ⟨-, -, rfl⟩ | ⟨seg', hstep, -⟩ := handleRequest_cases step
        · cases hsend
        · exact absurd hsend hstep.pc_ne_send
  | lockRelease _ pc | push _ pc | signal pc =>
      refine ⟨h.returned, ?_, ?_⟩
      · rintro - ⟨habsent, hshort⟩
        refine h.finished ?_ ⟨habsent, hshort⟩
        rw [Proxy.Finished, pc]
        trivial
      · rintro i ⟨⟩
  | unlockRelease pc =>
      refine ⟨?_, False.elim, ?_⟩
      · intro call hcall habsent hshort
        obtain hold | hlast := List.mem_append.mp hcall
        · exact h.returned call hold habsent hshort
        · rw [List.mem_singleton.mp hlast] at habsent hshort ⊢
          apply h.finished
          · rw [Proxy.Finished, pc]
            trivial
          · exact ⟨habsent, hshort⟩
      · rintro i ⟨⟩

/-! ### All calls -/

/-- The transfers go on as they should, and the calls without a file are refused. -/
structure Replies (get : List UInt8 → Option (List UInt8))
    (p : Pool (Shared n size threads workers) (ThreadLocal n threads workers)) : Prop where
  transfers : Transfers get p
  asked : ∀ t, Asked get size (p.threads (.inl t))
  refusing : ∀ i t, (p.threads (.inl t)).On i → (p.threads (.inl t)).Absent get →
    Refusing get i p.shared.channels (fun j => p.threads (.inr j)) (p.threads (.inl t)).request

variable {p p' : Pool (Shared n size threads workers) (ThreadLocal n threads workers)}

/-- The proxy thread sends a packet that names no file. -/
theorem Replies.send (h : Replies get p) (hpc : (p.threads (.inl t)).pc = .request i)
    (hsend : (p.threads (.inl t)).request.pc = .send)
    (habsent : (p.threads (.inl t)).Absent get) :
  Refusing get i { p.shared.channels with
      ctrl := p.shared.channels.ctrl ++ [(p.threads (.inl t)).request.thrPkt] }
    (fun j => p.threads (.inr j)) { (p.threads (.inl t)).request with pc := .filesize }
  := by
  obtain ⟨hstart, hasks⟩ := (h.transfers.calls t).begins i hpc hsend
  have hfile := (h.asked t).begins i hpc hsend habsent
  obtain ⟨hctrl, htoProxy, hlate⟩ :=
    InMode.idle (h.transfers.modes i) (h.transfers.proxyOn_eq_none hpc hsend)
  refine ⟨?_, ?_, ?_, Or.inl rfl, ?_⟩
  · intro pkt hpkt
    rw [Cache.requests, List.filter_append] at hpkt
    obtain hold | hlast := List.mem_append.mp hpkt
    · rw [Cache.requests] at hctrl
      rw [hctrl] at hold
      cases hold
    · obtain rfl := List.mem_singleton.mp (List.mem_filter.mp hlast).1
      exact hfile
  · intro j hon
    right
    right
    exact hlate j _ (if_pos hon)
  · dsimp only
    rw [htoProxy]
    rintro pkt ⟨⟩
  · rw [hstart]
    rfl

/-- Every step of a proxy thread keeps the replies. -/
theorem Replies.proxy_step (h : Replies get p) {b : ProxyAct}
    (hok : PathOk get (p.threads (.inl t)))
    (hs : Pool.step (code get) ⟨.inl t, b⟩ p = some p') :
  Replies get p'
  := by
  have hstep := handleWithCache_cases (Pool.step_own hs)
  have htasks : (fun j => p'.threads (.inr j)) = fun j => p.threads (.inr j) := by
    funext j
    exact Pool.step_other hs Sum.inr_ne_inl
  have hother : ∀ u, u ≠ t → p'.threads (.inl u) = p.threads (.inl u) :=
    fun u hu => Pool.step_other hs fun he => hu (Sum.inl.inj he)
  have hrequest : ∀ i, (p.threads (.inl t)).pc = .request i →
      (p.threads (.inl t)).request.pc ≠ .done → (p'.threads (.inl t)).request.pc = .done →
      (p.threads (.inl t)).Absent get →
      Refused (p'.threads (.inl t)).request.header (p'.threads (.inl t)).request.sent := by
    intro i hpc hbusy hdone habsent
    obtain ⟨-, hoff⟩ | ⟨i', r, hpc', -, hx, hrequest⟩ := hstep.concerned
    · exact absurd ((hoff i).1 hpc) hbusy
    · rw [hpc] at hpc'
      cases hpc'
      rw [hx] at hdone ⊢
      obtain ⟨-, -, rfl⟩ | ⟨seg', hloop, -⟩ := handleRequest_cases hrequest
      · cases hdone
      · have hrefusing := h.refusing i t ⟨hpc, hloop.pc⟩ habsent
        obtain ⟨hnot, -⟩ | ⟨-, hrefused⟩ := hrefusing.proxy_step hloop
        · exact absurd hdone hnot
        · exact hrefused
  constructor
  case transfers => exact h.transfers.proxy_step hok hs
  case asked =>
    intro u
    by_cases hu : u = t
    · subst hu
      exact (h.asked u).step (h.transfers.calls u).path hstep hrequest
    · rw [hother u hu]
      exact h.asked u
  case refusing =>
    intro i u hon habsent
    rw [htasks]
    by_cases hu : u = t
    · subst hu
      obtain ⟨-, hoff⟩ | ⟨i', r, hpc, -, hx, hrequest⟩ := hstep.concerned
      · have hnone := (hoff i).2.2
        rw [proxyOn, if_pos hon] at hnone
        cases hnone
      · obtain ⟨hpc', hsend', hdone'⟩ := hon
        rw [hx] at habsent hpc' hdone' ⊢
        cases hpc'
        have habsent' : (p.threads (.inl u)).Absent get := ⟨habsent.absent, habsent.short⟩
        obtain ⟨hsend, hc, rfl⟩ | ⟨seg', hloop, hc⟩ := handleRequest_cases hrequest
        · rw [hc]
          exact h.send hpc hsend habsent'
        · rw [hc]
          have hrefusing := h.refusing i u ⟨hpc, hloop.pc⟩ habsent'
          obtain ⟨-, hrefusing'⟩ | ⟨hdone, -⟩ := hrefusing.proxy_step hloop
          · exact hrefusing'
          · exact absurd hdone hdone'
    · rw [hother u hu] at hon habsent ⊢
      have hrefusing := h.refusing i u hon habsent
      obtain ⟨hc, -⟩ | ⟨i', r, hpc, -, -, hrequest⟩ := hstep.concerned
      · rw [hc]
        exact hrefusing
      · have hi : i ≠ i' := by
          rintro rfl
          have hheld : held (.inl t) (p.threads (.inl t)) = some i := by
            simp only [held]
            rw [hpc]
            rfl
          have heq : (Sum.inl u : ThreadId threads workers) = .inl t :=
            h.transfers.segments.unique hon.held hheld
          exact hu (Sum.inl.inj heq)
        obtain ⟨hsend, hc, -⟩ | ⟨seg', -, hc⟩ := handleRequest_cases hrequest
        · have hindex := ((h.transfers.calls t).begins i' hpc hsend).2.index
          apply hrefusing.frame
          · rw [requests, hc, List.filter_append, requests, List.filter_cons_of_neg,
              List.filter_nil, List.append_nil]
            simp only [decide_eq_true_eq]
            rw [hindex]
            intro heq
            apply hi
            apply Fin.ext
            exact_mod_cast heq.symm
          · rw [hc]
        · apply hrefusing.frame
          · rw [hc]
            rfl
          · rw [hc, Channels.set_other _ _ hi]

/-- Every step of a worker keeps the replies. -/
theorem Replies.task_step (hsize : 0 < size)
    (hfiles : ∀ path file, get path = some file → 0 < file.length ∧ file.length < 2 ^ 31)
    (h : Replies get p) {k : ℕ} (hok : OwnAck j (p.threads (.inr j)) p.shared.channels)
    (hs : Pool.step (code get) ⟨.inr j, k⟩ p = some p') :
  Replies get p'
  := by
  have hproxy : ∀ t, p'.threads (.inl t) = p.threads (.inl t) :=
    fun t => Pool.step_other hs Sum.inl_ne_inr
  have htasks : (fun u => p'.threads (.inr u)) =
      Function.update (fun u => p.threads (.inr u)) j (p'.threads (.inr j)) := by
    funext u
    by_cases hu : u = j
    · subst hu
      rw [Function.update_self]
    · rw [Function.update_of_ne hu, Pool.step_other hs fun he => hu (Sum.inr.inj he)]
  constructor
  case transfers => exact h.transfers.task_step hsize hfiles hok hs
  case asked =>
    intro t
    rw [hproxy t]
    exact h.asked t
  case refusing =>
    intro i t hon habsent
    rw [hproxy t] at hon habsent ⊢
    have hrefusing := h.refusing i t hon habsent
    obtain ⟨hstep, -⟩ := code_worker (Pool.step_own hs)
    obtain ⟨-, hmove⟩ := performTask_cases hstep
    rw [htasks]
    by_cases hwait : (p.threads (.inr j)).pc = .wait
    · obtain ⟨pkt, ctrl, ⟨hfirst, hc⟩, hw⟩ := hmove.of_wait hwait
      rw [hc, hw]
      exact hrefusing.receive hfirst j
    · by_cases hlookup : (p.threads (.inr j)).pc = .lookup
      · obtain ⟨hc, hw⟩ := hmove.of_lookup hlookup
        rw [hc, hw]
        exact hrefusing.lookup hlookup (h.transfers.fresh j hlookup) _
      · obtain ⟨i', seg', hseg, hbody, -, hc⟩ := hmove.of_body hwait hlookup
        rw [hc]
        apply hrefusing.body hseg hbody
        rintro rfl hpc
        have hx : proxyOn i' (p.threads (.inl t)) = some (p.threads (.inl t)) := if_pos hon
        have hw : taskOn i' (p.threads (.inr j)) = some (p.threads (.inr j)) :=
          if_pos ((Task.on_of_ne hlookup).mpr ⟨hwait, hseg⟩)
        apply InMode.ack_waits (h.transfers.modes i') hx hw hpc hbody _ hrefusing.toProxy
          hrefusing.waits
        intro pkt rest hfirst
        apply hok hpc i' hseg pkt
        rw [hfirst]
        rfl

/-- At the start nothing goes on. -/
theorem Replies.start (request : HandleRequest) (pkt : Packet) :
  Replies get (start request pkt : Pool (Shared n size threads workers) _)
  where
  transfers := Transfers.start request pkt
  asked t := ⟨nofun, False.elim, nofun⟩
  refusing i t hon := by
    obtain ⟨hpc, -⟩ := hon
    cases hpc

/-- Every step that does no harm keeps the replies. -/
theorem Replies.step (hsize : 0 < size)
    (hfiles : ∀ path file, get path = some file → 0 < file.length ∧ file.length < 2 ^ 31)
    {a : Σ t : ThreadId threads workers, ThreadAct threads workers t} (h : Replies get p)
    (hok : StepOk get a p) (hs : Pool.step (code get) a p = some p') :
  Replies get p'
  := by
  obtain ⟨t, b⟩ := a
  cases t with
  | inl t => exact h.proxy_step hok hs
  | inr j => exact h.task_step hsize hfiles hok hs

/-- What a call for a path is answered: the length and the bytes of its file, or that there is no
such file. -/
def Answered (get : List UInt8 → Option (List UInt8)) (path : List UInt8)
    (header : Option (Status × ℕ)) (sent : List UInt8) : Prop :=
  match get path with
  | some file => header = some (.ok, file.length) ∧ sent = file
  | none => header = some (.fileNotFound, 0) ∧ sent = []

/-- A call that has returned and whose path fits into a packet has been answered. -/
theorem Replies.answered (h : Replies get p) {call : Call}
    (hcall : call ∈ (p.threads (.inl t)).calls) (hshort : call.path.length < maxRequestLen) :
  Answered get call.path call.header call.sent
  := by
  cases hget : get call.path with
  | some file =>
      rw [Answered, hget]
      exact (h.transfers.calls t).returned call hcall file hget
  | none =>
      rw [Answered, hget]
      have hrefused := (h.asked t).returned call hcall hget hshort
      exact ⟨hrefused.header, hrefused.sent⟩

/-- For any number of segments, proxy threads and workers, any table of files with positive lengths
that fit into an `int`, and any schedule whose steps do no harm, a call of `handle_with_cache` that
has returned and whose path fits into a packet has been answered: with the length and then the bytes
of its file, or with `GF_FILE_NOT_FOUND` and no bytes when the cache has no such file. -/
theorem calls_answered (hsize : 0 < size)
    (hfiles : ∀ path file, get path = some file → 0 < file.length ∧ file.length < 2 ^ 31)
    {request : HandleRequest} {pkt : Packet} {as : Schedule threads workers}
    (hok : Along (Pool.step (code get)) (StepOk get) as
      (Cache.start request pkt : Pool (Shared n size threads workers) (ThreadLocal n threads workers)))
    (h : run (Pool.step (code get)) as (Cache.start request pkt) = some p) (t : Fin threads) :
  ∀ call ∈ (p.threads (.inl t)).calls, call.path.length < maxRequestLen →
    Answered get call.path call.header call.sent
  := by
  have hreplies : Replies get p := by
    refine run_invariant_along ?_ (Replies.start request pkt) hok h
    exact fun a q q' hq ha hs => hq.step hsize hfiles ha hs
  intro call hcall hshort
  exact hreplies.answered hcall hshort

/-- A step of the proxy thread for the path `a`. -/
def absentAct {workers : ℕ} : Σ t : ThreadId 1 workers, ThreadAct 1 workers t :=
  ⟨.inl (Fin.last 0), (⟨[97], [], ⟨⟨[], 0, 0, 0, 0, 0⟩, 0⟩, 0, false⟩ : ProxyAct)⟩

/-- One call for a path that is not in the cache. -/
def refusal : Schedule 1 1 :=
  List.replicate 6 absentAct ++ List.replicate 3 (taskAct (Fin.last 0)) ++
    List.replicate 7 absentAct

/-- The call for a path that is not in the cache is refused. -/
theorem calls_answered_one :
  ∃ p, run (Pool.step (code (rootFile [7]))) refusal (startOne 1) = some p ∧
    ∃ call ∈ (p.threads (.inl 0)).calls, Answered (rootFile [7]) [97] call.header call.sent
  := by
  have hrun : (run (Pool.step (code (rootFile [7]))) refusal (startOne 1)).map
      (fun p => (p.threads (.inl 0)).calls.map Call.path) = some [[97]] := by decide +kernel
  obtain ⟨p, h, hcalls⟩ := Option.map_eq_some_iff.mp hrun
  obtain ⟨call, hcall, hpath⟩ := List.mem_map.mp (hcalls ▸ List.mem_singleton_self _)
  refine ⟨p, h, call, hcall, ?_⟩
  rw [← hpath]
  apply calls_answered (by decide) ?_ ?_ h 0 call hcall
  · rw [hpath]
    decide
  · intro path file hfile
    rw [rootFile] at hfile
    split at hfile
    · cases hfile
      decide
    · cases hfile
  · decide +kernel

end GetFile.Cache
