import GetFile.Cache.Mode
import GetFile.Cache.Segments

/-!
# The transfers of all calls

With any number of segments, proxy threads and workers, what goes on on each segment is one
exchange behind packets that have not been taken (`Mode`), as long as each worker takes the packets
that are meant for it and no path of a file in the cache is too long for a packet (`StepOk`). Then
every call of `handle_with_cache` for a file in the cache announces the length of the file and sends
its bytes (`transfers_isolated`). A worker that takes the last packet of another one ends its
own file too early.
-/

namespace GetFile.Cache

open CString Transition

variable {n size threads workers : ℕ} {get : List UInt8 → Option (List UInt8)}
  {i : Fin n} {seg seg' : Segment size} {t : Fin threads} {x x' : Proxy n} {j : Fin workers}
  {w w' : Task n}

/-! ### The calls of a proxy thread -/

/-- A path that is shorter than the array in the packet comes through. -/
theorem key_initThreadPkt {pkt : Packet} {path behind : List UInt8} {index : ℤ} {num : ℕ}
    (hpath : ∀ c ∈ path, c ≠ 0) (hlen : path.length < maxRequestLen) :
  ((initThreadPkt pkt path behind index).received num size).key = path
  := by
  have htake : (path ++ 0 :: behind ++ List.replicate maxRequestLen 0).take maxRequestLen =
      path ++ 0 :: (behind ++ List.replicate maxRequestLen 0).take
        (maxRequestLen - path.length - 1) := by
    rw [List.append_assoc, List.cons_append, List.take_append, List.take_of_length_le hlen.le]
    obtain ⟨m, hm⟩ := Nat.exists_eq_add_of_lt hlen
    have hrest : maxRequestLen - path.length = m + 1 := by omega
    rw [hrest, List.take_succ_cons, Nat.add_sub_cancel]
  have hpass : ∀ c ∈ path, (c != 0) = true := by
    intro c hc
    simpa using hpath c hc
  simp only [ThreadPacket.key, Packet.received, initThreadPkt]
  rw [htake]
  simp only [List.append_assoc, List.cons_append]
  rw [List.takeWhile_append_of_pos hpass, List.takeWhile_cons_of_neg (by simp), List.append_nil]

/-- `handle_request` has returned. -/
def Proxy.Finished (x : Proxy n) : Prop :=
  match x.pc with
  | .request _ => x.request.pc = .done
  | .lockRelease _ | .push _ | .signal | .unlockRelease => True
  | _ => False

/-- The calls of a proxy thread that have returned are served, and so is the one that has come to
the end of `handle_request`. The packet of one that begins asks for its path. -/
structure Calls (get : List UInt8 → Option (List UInt8)) (size : ℕ) (x : Proxy n) : Prop where
  returned : ∀ call ∈ x.calls, Served get call.path call.header call.sent
  finished : x.Finished → Served get x.path x.request.header x.request.sent
  path : ∀ c ∈ x.path, c ≠ 0
  begins : ∀ i, x.pc = .request i → x.request.pc = .send →
    x.request = HandleRequest.start x.request.thrPkt ∧
      AsksFor get size i x.path x.request.thrPkt

/-- The path of a file in the cache is shorter than the array in the packet when the packet is
filled in. -/
def PathOk (get : List UInt8 → Option (List UInt8)) (x : Proxy n) : Prop :=
  ∀ i, x.pc = .unlock i → get x.path ≠ none → x.path.length < maxRequestLen

instance (x : Proxy n) : Decidable (PathOk get x) :=
  inferInstanceAs (Decidable (∀ _, _ → _))

/-- The loop of `handle_request` does not go back to its beginning. -/
theorem HandleRequest.Step.pc_ne_send {r r' : HandleRequest}
    (h : HandleRequest.Step seg r seg' r') :
  r'.pc ≠ .send
  := by
  have hloop : ∀ r : HandleRequest, r.loop.pc ≠ .send := by
    intro r
    simp only [HandleRequest.loop]
    split
    · simp
    · simp
  cases h with
  | hit | ack => apply hloop
  | filesize | miss | data | gfsSend => simp

/-- A step of a proxy thread that is not one of `handle_request` keeps its calls. -/
theorem Calls.step {t : ThreadId threads workers} {b : ProxyAct}
    {s s' : Shared n size threads workers} (h : Calls get size x)
    (hok : PathOk get x) (hs : ProxyStep t b s x s' x')
    (hrequest : ∀ i, x.pc = .request i → x.request.pc ≠ .done → x'.request.pc = .done →
      Served get x.path x'.request.header x'.request.sent) :
  Calls get size x'
  := by
  cases hs with
  | out pc =>
      refine ⟨h.returned, False.elim, ?_, nofun⟩
      intro c hc
      simpa using List.mem_takeWhile_imp hc
  | lock pc | empty pc | found pc | wait pc | awake pc | pop _ _ pc =>
      exact ⟨h.returned, False.elim, h.path, nofun⟩
  | spurious pc => exact h
  | underflow pc => exact h
  | unlock i pc =>
      refine ⟨h.returned, nofun, h.path, ?_⟩
      rintro i' ⟨⟩ -
      refine ⟨rfl, rfl, ?_⟩
      intro file hfile num
      have hlen := hok i pc (by rw [hfile]; exact Option.some_ne_none _)
      have hkey := @key_initThreadPkt size b.pkt x.path b.behind i num h.path hlen
      exact (congrArg get hkey).trans hfile
  | done i pc done =>
      refine ⟨h.returned, fun _ => h.finished ?_, h.path, nofun⟩
      rw [Proxy.Finished, pc]
      exact done
  | request i channels r pc busy step =>
      refine ⟨h.returned, fun hdone => hrequest i pc busy hdone, h.path, ?_⟩
      rintro i' ⟨⟩ hsend
      obtain ⟨-, -, rfl⟩ | ⟨seg', hstep, -⟩ := handleRequest_cases step
      · cases hsend
      · exact absurd hsend hstep.pc_ne_send
  | lockRelease _ pc | push _ pc | signal pc =>
      refine ⟨h.returned, fun _ => h.finished ?_, h.path, nofun⟩
      rw [Proxy.Finished, pc]
      trivial
  | unlockRelease pc =>
      refine ⟨?_, False.elim, h.path, nofun⟩
      intro call hcall
      obtain hold | hlast := List.mem_append.mp hcall
      · exact h.returned call hold
      · rw [List.mem_singleton.mp hlast]
        apply h.finished
        rw [Proxy.Finished, pc]
        trivial

/-! ### What the steps do to the segments -/

/-- A proxy thread concerns the segment that it holds. -/
theorem Proxy.On.held (h : x.On i) :
  x.pc.held = some i
  := by
  rw [h.1]
  rfl

theorem proxyOn_of_ne (h : x.pc ≠ .request i) :
  proxyOn i x = none
  := if_neg fun hon => h hon.1

/-- A proxy thread in `handle_request` concerns no segment but its own. -/
theorem proxyOn_of_request {i' : Fin n} (hpc : x.pc = .request i) (hi : i' ≠ i) :
  proxyOn i' x = none
  := by
  apply proxyOn_of_ne
  rw [hpc]
  intro heq
  cases heq
  exact hi rfl

/-- A step of a proxy thread is one of `handle_request`, or it concerns no segment. -/
theorem ProxyStep.concerned {t : ThreadId threads workers} {b : ProxyAct}
    {s s' : Shared n size threads workers} (h : ProxyStep t b s x s' x') :
  (s'.channels = s.channels ∧ ∀ i, (x.pc = .request i → x.request.pc = .done) ∧
      proxyOn i x = none ∧ proxyOn i x' = none) ∨
    ∃ i r, x.pc = .request i ∧ x.request.pc ≠ .done ∧ x' = { x with pc := .request i, request := r } ∧
      handleRequest i b.answer s.channels x.request = some (s'.channels, r)
  := by
  cases h with
  | request i channels r pc busy step => exact Or.inr ⟨i, r, pc, busy, rfl, step⟩
  | unlock i pc =>
      refine Or.inl ⟨rfl, fun i' => ⟨by simp [pc], proxyOn_of_ne (by simp [pc]), ?_⟩⟩
      exact if_neg fun hon => hon.2.1 rfl
  | done i pc done =>
      refine Or.inl ⟨rfl, fun i' => ⟨fun _ => done, ?_, proxyOn_of_ne (by simp)⟩⟩
      exact if_neg fun hon => hon.2.2 done
  | spurious pc | underflow pc =>
      exact Or.inl ⟨rfl, fun i' =>
        ⟨by simp [pc], proxyOn_of_ne (by simp [pc]), proxyOn_of_ne (by simp [pc])⟩⟩
  | out pc | lock pc | empty pc | found pc | wait pc | awake pc | pop _ _ pc | lockRelease _ pc
  | push _ pc | signal pc | unlockRelease pc =>
      exact Or.inl ⟨rfl, fun i' =>
        ⟨by simp [pc], proxyOn_of_ne (by simp [pc]), proxyOn_of_ne (by simp)⟩⟩

/-- The steps of a worker on its segment begin and end while it serves a request. -/
theorem Task.Step.pc {num : ℕ} (h : Task.Step num seg w seg' w') :
  w.pc ≠ .wait ∧ w.pc ≠ .lookup ∧ w'.pc ≠ .lookup
  := by
  have hloop : ∀ w : Task n, w.loop.pc ≠ .lookup := by
    intro w
    simp only [Task.loop]
    split
    · simp
    · simp
  cases h with
  | hit pc => exact ⟨by simp [pc], by simp [pc], hloop w⟩
  | ack pkt rest pc => exact ⟨by simp [pc], by simp [pc], hloop _⟩
  | miss pc | fail pc | pread _ pc | sendData pc => simp [pc]

/-- A worker that looks the file up serves the segment that its packet asks for. -/
theorem Task.on_of_lookup (h : w.pc = .lookup) :
  w.On i ↔ w.thrPkt.segmentIndex = i
  := by rw [Task.On, if_pos h]

/-- Later the worker serves the segment that it has found. -/
theorem Task.on_of_ne (h : w.pc ≠ .lookup) :
  w.On i ↔ w.pc ≠ .wait ∧ w.seg = some i
  := by rw [Task.On, if_neg h]

theorem taskOn_of_wait (h : w.pc = .wait) :
  taskOn i w = none
  := by
  rw [taskOn, if_neg]
  simp [Task.On, h]

/-- A worker that has found its segment concerns no other one. -/
theorem taskOn_of_seg {i' : Fin n} (hpc : w.pc ≠ .lookup) (hseg : w.seg = some i) (hi : i' ≠ i) :
  taskOn i' w = none
  := by
  apply if_neg
  rw [Task.on_of_ne hpc, hseg]
  rintro ⟨-, heq⟩
  cases heq
  exact hi rfl

/-- The packets in the control queue that ask for a segment. -/
def requests (i : Fin n) (c : Channels n size) : Mq :=
  c.ctrl.filter fun pkt => pkt.segmentIndex = i

/-- A worker that finds the file and the segment then serves the request. -/
theorem Task.On.lookup {num : ℕ}
    (hfiles : ∀ path file, get path = some file → 0 < file.length ∧ file.length < 2 ^ 31)
    (hindex : w.thrPkt.segmentIndex = i) :
  (w.lookup get num size).On i
  := by
  have hsegment : findSegment n (w.thrPkt.received num size).segmentIndex = some i := by
    rw [show (w.thrPkt.received num size).segmentIndex = i from hindex]
    apply findSegment_val
  unfold Task.lookup Task.fill
  simp only [hsegment]
  cases hkey : get (w.thrPkt.received num size).key with
  | none => simp [Task.On]
  | some file =>
      obtain ⟨hpos, hle⟩ := hfiles _ file hkey
      have hmod : file.length % 2 ^ 32 > 0 := by
        rw [Nat.mod_eq_of_lt (by omega)]
        exact hpos
      dsimp only
      rw [if_pos hmod]
      simp [Task.On]

/-- A segment that is found has the index. -/
theorem findSegment_eq_some {index : ℤ} (h : findSegment n index = some i) :
  index = i
  := by
  unfold findSegment at h
  split at h
  · rename_i hrange
    cases h
    exact (Int.toNat_of_nonneg hrange.1).symm
  · cases h

/-- The lookup leads on. -/
theorem Task.lookup_pc {num : ℕ} :
  (w.lookup get num size).pc ≠ .lookup
  := by
  unfold Task.lookup Task.fill
  dsimp only
  split
  · simp
  · split
    · simp
    · split
      · simp
      · simp

/-- The lookup gives the worker the segment that its packet asks for, or none. -/
theorem Task.lookup_seg {num : ℕ} (hseg : w.seg = none)
    (h : (w.lookup get num size).seg = some i) :
  w.thrPkt.segmentIndex = i
  := by
  unfold Task.lookup Task.fill at h
  dsimp only at h
  cases hfind : findSegment n (w.thrPkt.received num size).segmentIndex with
  | none =>
      rw [hfind] at h
      dsimp only at h
      rw [hseg] at h
      cases h
  | some i' =>
      rw [hfind] at h
      dsimp only at h
      have hi : i' = i := by
        split at h
        · cases h
          rfl
        · split at h
          · cases h
            rfl
          · rw [hseg] at h
            cases h
      rw [hi] at hfind
      exact findSegment_eq_some hfind

/-! ### All segments -/

/-- What goes on on segment `i` in a state of all threads. -/
def ModeAt (get : List UInt8 → Option (List UInt8)) (i : Fin n)
    (p : Pool (Shared n size threads workers) (ThreadLocal n threads workers)) : Prop :=
  InMode get i (requests i p.shared.channels) (p.shared.channels.segments i)
    (fun t => proxyOn i (p.threads (.inl t))) (fun j => taskOn i (p.threads (.inr j)))

/-- The segments are conserved, the calls that have returned are served, a worker that looks a file
up has no segment yet, and on each segment one exchange goes on. -/
structure Transfers (get : List UInt8 → Option (List UInt8))
    (p : Pool (Shared n size threads workers) (ThreadLocal n threads workers)) : Prop where
  segments : Segments p
  calls : ∀ t, Calls get size (p.threads (.inl t))
  fresh : ∀ j, (p.threads (.inr j)).pc = .lookup → (p.threads (.inr j)).seg = none
  modes : ∀ i, ModeAt get i p

/-- A worker that takes a packet back from the proxy takes one that it has sent. -/
def OwnAck (j : ℕ) (w : Task n) (c : Channels n size) : Prop :=
  w.pc = .ack → ∀ i, w.seg = some i → ∀ pkt ∈ (c.segments i).proxyToCache.head?, pkt.worker = j

instance (j : ℕ) (w : Task n) (c : Channels n size) : Decidable (OwnAck j w c) :=
  inferInstanceAs (Decidable (_ → _))

/-- The next step does no harm: a path in the cache that is put into a packet is shorter than the
array for it, and a worker that takes a packet back takes one that it has sent. -/
def StepOk (get : List UInt8 → Option (List UInt8))
    (a : Σ t : ThreadId threads workers, ThreadAct threads workers t)
    (p : Pool (Shared n size threads workers) (ThreadLocal n threads workers)) : Prop :=
  match a.1 with
  | .inl t => PathOk get (p.threads (.inl t))
  | .inr j => OwnAck j (p.threads (.inr j)) p.shared.channels

instance (a : Σ t : ThreadId threads workers, ThreadAct threads workers t)
    (p : Pool (Shared n size threads workers) (ThreadLocal n threads workers)) :
    Decidable (StepOk get a p) :=
  match a with
  | ⟨.inl t, _⟩ => inferInstanceAs (Decidable (PathOk get (p.threads (.inl t))))
  | ⟨.inr j, _⟩ => inferInstanceAs (Decidable (OwnAck j (p.threads (.inr j)) p.shared.channels))

variable {p p' : Pool (Shared n size threads workers) (ThreadLocal n threads workers)}

/-- What a step of a proxy thread does to the threads as far as a segment is concerned. -/
theorem proxyOn_step {b : ProxyAct} (hs : Pool.step (code get) ⟨.inl t, b⟩ p = some p')
    (i : Fin n) :
  (fun u => proxyOn i (p'.threads (.inl u))) = Function.update
      (fun u => proxyOn i (p.threads (.inl u))) t (proxyOn i (p'.threads (.inl t))) ∧
    (fun j => taskOn i (p'.threads (.inr j))) = fun j => taskOn i (p.threads (.inr j))
  := by
  constructor
  · funext u
    by_cases hu : u = t
    · subst hu
      rw [Function.update_self]
    · rw [Function.update_of_ne hu, Pool.step_other hs fun he => hu (Sum.inl.inj he)]
  · funext j
    rw [Pool.step_other hs Sum.inr_ne_inl]

/-- What a step of a worker does to the threads as far as a segment is concerned. -/
theorem taskOn_step {k : ℕ} (hs : Pool.step (code get) ⟨.inr j, k⟩ p = some p') (i : Fin n) :
  (fun u => proxyOn i (p'.threads (.inl u))) = (fun u => proxyOn i (p.threads (.inl u))) ∧
    (fun u => taskOn i (p'.threads (.inr u))) = Function.update
      (fun u => taskOn i (p.threads (.inr u))) j (taskOn i (p'.threads (.inr j)))
  := by
  constructor
  · funext u
    rw [Pool.step_other hs Sum.inl_ne_inr]
  · funext u
    by_cases hu : u = j
    · subst hu
      rw [Function.update_self]
    · rw [Function.update_of_ne hu, Pool.step_other hs fun he => hu (Sum.inr.inj he)]

/-- A proxy thread that does not concern a segment before and after its step, which leaves the
segment as it is, leaves its mode as it is. -/
theorem ModeAt.of_proxy {b : ProxyAct} (h : ModeAt get i p)
    (hs : Pool.step (code get) ⟨.inl t, b⟩ p = some p')
    (hrequests : requests i p'.shared.channels = requests i p.shared.channels)
    (hseg : p'.shared.channels.segments i = p.shared.channels.segments i)
    (hx : proxyOn i (p.threads (.inl t)) = none) (hx' : proxyOn i (p'.threads (.inl t)) = none) :
  ModeAt get i p'
  := by
  obtain ⟨hproxies, htasks⟩ := proxyOn_step hs i
  rw [ModeAt, hrequests, hseg, hproxies, htasks, hx', ← hx, Function.update_eq_self]
  exact h

/-- Neither does a worker that does not concern it. -/
theorem ModeAt.of_task {k : ℕ} (h : ModeAt get i p)
    (hs : Pool.step (code get) ⟨.inr j, k⟩ p = some p')
    (hrequests : requests i p'.shared.channels = requests i p.shared.channels)
    (hseg : p'.shared.channels.segments i = p.shared.channels.segments i)
    (hw : taskOn i (p.threads (.inr j)) = none) (hw' : taskOn i (p'.threads (.inr j)) = none) :
  ModeAt get i p'
  := by
  obtain ⟨hproxies, htasks⟩ := taskOn_step hs i
  rw [ModeAt, hrequests, hseg, hproxies, htasks, hw', ← hw, Function.update_eq_self]
  exact h

/-! ### The steps of a proxy thread -/

/-- When a proxy thread has not yet sent its packet, no proxy thread concerns its segment. -/
theorem Transfers.proxyOn_eq_none (h : Transfers get p)
    (hpc : (p.threads (.inl t)).pc = .request i) (hsend : (p.threads (.inl t)).request.pc = .send) :
  (fun u => proxyOn i (p.threads (.inl u))) = fun _ => none
  := by
  funext u
  apply if_neg
  intro hon
  have hheld : held (.inl t) (p.threads (.inl t)) = some i := by
    simp only [held]
    rw [hpc]
    rfl
  have hu : (Sum.inl u : ThreadId threads workers) = .inl t := h.segments.unique hon.held hheld
  obtain rfl := Sum.inl.inj hu
  exact hon.2.1 hsend

/-- The proxy thread sends its packet. -/
theorem Transfers.send (h : Transfers get p) {b : ProxyAct}
    (hs : Pool.step (code get) ⟨.inl t, b⟩ p = some p')
    (hpc : (p.threads (.inl t)).pc = .request i) (hsend : (p.threads (.inl t)).request.pc = .send)
    (hc : p'.shared.channels = { p.shared.channels with
      ctrl := p.shared.channels.ctrl ++ [(p.threads (.inl t)).request.thrPkt] })
    (hx : p'.threads (.inl t) = { p.threads (.inl t) with
      pc := .request i, request := { (p.threads (.inl t)).request with pc := .filesize } })
    (i' : Fin n) :
  ModeAt get i' p'
  := by
  obtain ⟨hstart, hasks⟩ := (h.calls t).begins i hpc hsend
  have hindex := hasks.index
  by_cases hi : i' = i
  · subst hi
    obtain ⟨hproxies, htasks⟩ := proxyOn_step hs i'
    have hrequests : requests i' p'.shared.channels =
        requests i' p.shared.channels ++ [(p.threads (.inl t)).request.thrPkt] := by
      rw [requests, hc, List.filter_append, requests]
      congr 1
      rw [List.filter_cons_of_pos (by simpa using hindex), List.filter_nil]
    have hon : proxyOn i' (p'.threads (.inl t)) = some (p'.threads (.inl t)) := by
      apply if_pos
      rw [hx]
      exact ⟨rfl, by simp, by simp⟩
    have hpath : (p'.threads (.inl t)).path = (p.threads (.inl t)).path := by rw [hx]
    have hunanswered : Unanswered (p'.threads (.inl t)).request := by
      rw [hx, hstart]
      exact ⟨rfl, rfl, rfl, rfl⟩
    rw [ModeAt, hrequests, hproxies, htasks, hon, hc]
    rw [← hpath] at hasks
    exact (h.modes i').send (h.proxyOn_eq_none hpc hsend) hasks hunanswered t
  · apply (h.modes i').of_proxy hs
    · rw [requests, hc, List.filter_append, requests, List.filter_cons_of_neg, List.filter_nil,
        List.append_nil]
      simp only [decide_eq_true_eq]
      rw [hindex]
      intro heq
      apply hi
      apply Fin.ext
      exact_mod_cast heq.symm
    · rw [hc]
    · apply proxyOn_of_request hpc hi
    · rw [hx]
      apply proxyOn_of_request rfl hi

/-- The proxy thread takes a step in the loop of `handle_request`. -/
theorem Transfers.loop (h : Transfers get p) {b : ProxyAct} {r : HandleRequest}
    (hs : Pool.step (code get) ⟨.inl t, b⟩ p = some p')
    (hpc : (p.threads (.inl t)).pc = .request i)
    (hstep : HandleRequest.Step (p.shared.channels.segments i) (p.threads (.inl t)).request seg' r)
    (hc : p'.shared.channels = p.shared.channels.set i seg')
    (hx : p'.threads (.inl t) = { p.threads (.inl t) with pc := .request i, request := r }) :
  (∀ i', ModeAt get i' p') ∧
    (r.pc = .done → Served get (p.threads (.inl t)).path r.header r.sent)
  := by
  have hon : proxyOn i (p.threads (.inl t)) = some (p.threads (.inl t)) :=
    if_pos ⟨hpc, hstep.pc.1, hstep.pc.2⟩
  have hon' : proxyOn i (p'.threads (.inl t)) = if r.pc = .done then none
      else some { p.threads (.inl t) with pc := .request i, request := r } := by
    rw [hx]
    by_cases hdone : r.pc = .done
    · rw [if_pos hdone]
      exact if_neg fun hon => hon.2.2 hdone
    · rw [if_neg hdone]
      exact if_pos ⟨rfl, hstep.pc_ne_send, hdone⟩
  obtain ⟨hmode, hserved⟩ := (h.modes i).proxy_step hon hstep
  refine ⟨?_, hserved⟩
  intro i'
  by_cases hi : i' = i
  · subst hi
    obtain ⟨hproxies, htasks⟩ := proxyOn_step hs i'
    rw [ModeAt, hproxies, htasks, hon', hc, Channels.set_self]
    exact hmode
  · apply (h.modes i').of_proxy hs
    · rw [hc]
      rfl
    · rw [hc, Channels.set_other _ _ hi]
    · apply proxyOn_of_request hpc hi
    · rw [hx]
      apply proxyOn_of_request rfl hi

/-- Every step of a proxy thread keeps the transfers. -/
theorem Transfers.proxy_step (h : Transfers get p) {b : ProxyAct}
    (hok : PathOk get (p.threads (.inl t)))
    (hs : Pool.step (code get) ⟨.inl t, b⟩ p = some p') :
  Transfers get p'
  := by
  have hstep := handleWithCache_cases (Pool.step_own hs)
  have hmodes : (∀ i, ModeAt get i p') ∧ ∀ i, (p.threads (.inl t)).pc = .request i →
      (p.threads (.inl t)).request.pc ≠ .done → (p'.threads (.inl t)).request.pc = .done →
      Served get (p.threads (.inl t)).path (p'.threads (.inl t)).request.header
        (p'.threads (.inl t)).request.sent := by
    obtain ⟨hc, hoff⟩ | ⟨i, r, hpc, hbusy, hx, hrequest⟩ := hstep.concerned
    · constructor
      · intro i
        apply (h.modes i).of_proxy hs
        · rw [hc]
        · rw [hc]
        · exact (hoff i).2.1
        · exact (hoff i).2.2
      · intro i hpc hbusy
        exact absurd ((hoff i).1 hpc) hbusy
    · obtain ⟨hsend, hc, rfl⟩ | ⟨seg', hloop, hc⟩ := handleRequest_cases hrequest
      · refine ⟨h.send hs hpc hsend hc hx, ?_⟩
        intro _ _ _ hdone
        rw [hx] at hdone
        cases hdone
      · obtain ⟨hall, hserved⟩ := h.loop hs hpc hloop hc hx
        refine ⟨hall, ?_⟩
        intro _ _ _ hdone
        rw [hx] at hdone ⊢
        exact hserved hdone
  constructor
  case segments => exact h.segments.step hs
  case calls =>
    intro u
    by_cases hu : u = t
    · subst hu
      exact (h.calls u).step hok hstep hmodes.2
    · rw [Pool.step_other hs fun he => hu (Sum.inl.inj he)]
      exact h.calls u
  case fresh =>
    intro j
    rw [Pool.step_other hs Sum.inr_ne_inl]
    exact h.fresh j
  case modes => exact hmodes.1

/-! ### The steps of a worker -/

/-- The worker takes a packet out of the control queue. -/
theorem Transfers.receive (h : Transfers get p) {k : ℕ} {pkt : Packet} {ctrl : Mq}
    (hs : Pool.step (code get) ⟨.inr j, k⟩ p = some p')
    (hpc : (p.threads (.inr j)).pc = .wait) (hfirst : p.shared.channels.ctrl = pkt :: ctrl)
    (hc : p'.shared.channels = { p.shared.channels with ctrl })
    (hw : p'.threads (.inr j) = Task.request pkt) (i : Fin n) :
  ModeAt get i p'
  := by
  have hoff : taskOn i (p.threads (.inr j)) = none := taskOn_of_wait hpc
  by_cases hindex : pkt.segmentIndex = i
  · obtain ⟨hproxies, htasks⟩ := taskOn_step hs i
    have hrequests : requests i p.shared.channels = pkt :: requests i p'.shared.channels := by
      rw [requests, hfirst, List.filter_cons_of_pos (by simpa using hindex), requests, hc]
    have hon : taskOn i (p'.threads (.inr j)) = some (Task.request pkt) := by
      rw [hw]
      exact if_pos ((Task.on_of_lookup rfl).mpr hindex)
    have hmode := h.modes i
    rw [ModeAt, hrequests] at hmode
    rw [ModeAt, hproxies, htasks, hon, hc]
    rw [hc] at hmode
    exact hmode.receive hoff
  · apply (h.modes i).of_task hs
    · rw [requests, hc, requests, hfirst, List.filter_cons_of_neg (by simpa using hindex)]
    · rw [hc]
    · exact hoff
    · rw [hw]
      exact if_neg fun hon => hindex ((Task.on_of_lookup rfl).mp hon)

/-- The worker looks the file up. -/
theorem Transfers.lookup (hsize : 0 < size)
    (hfiles : ∀ path file, get path = some file → 0 < file.length ∧ file.length < 2 ^ 31)
    (h : Transfers get p) {k : ℕ} (hs : Pool.step (code get) ⟨.inr j, k⟩ p = some p')
    (hpc : (p.threads (.inr j)).pc = .lookup)
    (hrequests : ∀ i, requests i p'.shared.channels = requests i p.shared.channels)
    (hseg : p'.shared.channels.segments = p.shared.channels.segments)
    (hw : p'.threads (.inr j) = (p.threads (.inr j)).lookup get j size) (i : Fin n) :
  ModeAt get i p'
  := by
  by_cases hindex : (p.threads (.inr j)).thrPkt.segmentIndex = i
  · obtain ⟨hproxies, htasks⟩ := taskOn_step hs i
    have hon : taskOn i (p.threads (.inr j)) = some (p.threads (.inr j)) :=
      if_pos ((Task.on_of_lookup hpc).mpr hindex)
    have hon' : taskOn i (p'.threads (.inr j)) =
        some ((p.threads (.inr j)).lookup get j size) := by
      rw [hw]
      exact if_pos (Task.On.lookup hfiles hindex)
    rw [ModeAt, hrequests, hproxies, htasks, hon', hseg]
    exact (h.modes i).lookup hsize hfiles hon hpc
  · apply (h.modes i).of_task hs (hrequests i) (by rw [hseg])
    · exact if_neg fun hon => hindex ((Task.on_of_lookup hpc).mp hon)
    · rw [hw]
      apply if_neg
      rw [Task.on_of_ne Task.lookup_pc]
      rintro ⟨-, hseg⟩
      exact hindex (Task.lookup_seg (h.fresh j hpc) hseg)

/-- The worker takes a step on its segment. -/
theorem Transfers.body (h : Transfers get p) {k : ℕ}
    (hok : OwnAck j (p.threads (.inr j)) p.shared.channels)
    (hs : Pool.step (code get) ⟨.inr j, k⟩ p = some p')
    (hseg : (p.threads (.inr j)).seg = some i)
    (hstep : Task.Step j (p.shared.channels.segments i) (p.threads (.inr j)) seg' w')
    (hc : p'.shared.channels = { p.shared.channels.set i seg' with exited := w'.pc = .failed })
    (hw : p'.threads (.inr j) = w') (i' : Fin n) :
  ModeAt get i' p'
  := by
  obtain ⟨hwait, hlookup, hlookup'⟩ := hstep.pc
  have hseg' : w'.seg = some i := hstep.seg.trans hseg
  by_cases hi : i' = i
  · subst hi
    obtain ⟨hproxies, htasks⟩ := taskOn_step hs i'
    have hon : taskOn i' (p.threads (.inr j)) = some (p.threads (.inr j)) :=
      if_pos ((Task.on_of_ne hlookup).mpr ⟨hwait, hseg⟩)
    have hon' : taskOn i' (p'.threads (.inr j)) =
        if w'.pc = .wait ∨ w'.pc = .lookup then none else some w' := by
      rw [hw, taskOn]
      by_cases hdone : w'.pc = .wait
      · rw [if_pos (Or.inl hdone)]
        exact taskOn_of_wait hdone
      · rw [if_neg (not_or.mpr ⟨hdone, hlookup'⟩)]
        exact if_pos ((Task.on_of_ne hlookup').mpr ⟨hdone, hseg'⟩)
    have hrequests : requests i' p'.shared.channels = requests i' p.shared.channels := by
      rw [hc]
      rfl
    have hsegment : p'.shared.channels.segments i' = seg' := by
      rw [hc]
      exact Channels.set_self _ _ _
    rw [ModeAt, hrequests, hproxies, htasks, hon', hsegment]
    apply (h.modes i').task_step hon hstep
    intro hpc pkt rest hfirst
    apply hok hpc i' hseg pkt
    rw [hfirst]
    rfl
  · apply (h.modes i').of_task hs
    · rw [hc]
      rfl
    · rw [hc]
      exact Channels.set_other _ _ hi
    · apply taskOn_of_seg hlookup hseg hi
    · rw [hw]
      apply taskOn_of_seg hlookup' hseg' hi

/-- Every step of a worker keeps the transfers. -/
theorem Transfers.task_step (hsize : 0 < size)
    (hfiles : ∀ path file, get path = some file → 0 < file.length ∧ file.length < 2 ^ 31)
    (h : Transfers get p) {k : ℕ}
    (hok : OwnAck j (p.threads (.inr j)) p.shared.channels)
    (hs : Pool.step (code get) ⟨.inr j, k⟩ p = some p') :
  Transfers get p'
  := by
  obtain ⟨hstep, -⟩ := code_worker (Pool.step_own hs)
  obtain ⟨-, hmove⟩ := performTask_cases hstep
  have hmodes : (∀ i, ModeAt get i p') ∧
      ((p'.threads (.inr j)).pc = .lookup → (p'.threads (.inr j)).seg = none) := by
    by_cases hwait : (p.threads (.inr j)).pc = .wait
    · obtain ⟨pkt, ctrl, ⟨hfirst, hc⟩, hw⟩ := hmove.of_wait hwait
      exact ⟨h.receive hs hwait hfirst hc hw, fun _ => by rw [hw]; rfl⟩
    · by_cases hlookup : (p.threads (.inr j)).pc = .lookup
      · obtain ⟨hc, hw⟩ := hmove.of_lookup hlookup
        refine ⟨h.lookup hsize hfiles hs hlookup ?_ ?_ hw, ?_⟩
        · intro i
          rw [hc]
          rfl
        · rw [hc]
        · intro hpc
          rw [hw] at hpc
          exact absurd hpc Task.lookup_pc
      · obtain ⟨i, seg', hseg, hbody, -, hc⟩ := hmove.of_body hwait hlookup
        exact ⟨h.body hok hs hseg hbody hc rfl, fun hpc => absurd hpc hbody.pc.2.2⟩
  constructor
  case segments => exact h.segments.step hs
  case calls =>
    intro t
    rw [Pool.step_other hs Sum.inl_ne_inr]
    exact h.calls t
  case fresh =>
    intro u
    by_cases hu : u = j
    · subst hu
      exact hmodes.2
    · rw [Pool.step_other hs fun he => hu (Sum.inr.inj he)]
      exact h.fresh u
  case modes => exact hmodes.1

/-! ### All calls -/

/-- At the start nothing goes on. -/
theorem Transfers.start (request : HandleRequest) (pkt : Packet) :
  Transfers get (start request pkt : Pool (Shared n size threads workers) _)
  where
  segments := Segments.start request pkt
  calls t := ⟨nofun, False.elim, nofun, nofun⟩
  fresh j _ := rfl
  modes i := by
    have hproxies : (fun t => proxyOn i ((Cache.start request pkt :
        Pool (Shared n size threads workers) (ThreadLocal n threads workers)).threads (.inl t))) =
        single none := by
      funext t
      exact proxyOn_of_ne (by simp [Cache.start])
    have htasks : ∀ j, taskOn i ((Cache.start request pkt :
        Pool (Shared n size threads workers) (ThreadLocal n threads workers)).threads (.inr j)) =
        none := fun j => taskOn_of_wait rfl
    refine ⟨[], [], none, none, rfl, hproxies, ?_, ⟨List.nodup_nil, ?_, ?_⟩, .quiet rfl rfl rfl⟩
    · rintro _ _ ⟨⟩
    · rintro _ ⟨⟩
    · intro j w hw
      rw [without, htasks j] at hw
      cases hw

/-- Every step that does no harm keeps the transfers. -/
theorem Transfers.step (hsize : 0 < size)
    (hfiles : ∀ path file, get path = some file → 0 < file.length ∧ file.length < 2 ^ 31)
    {a : Σ t : ThreadId threads workers, ThreadAct threads workers t} (h : Transfers get p)
    (hok : StepOk get a p) (hs : Pool.step (code get) a p = some p') :
  Transfers get p'
  := by
  obtain ⟨t, b⟩ := a
  cases t with
  | inl t => exact h.proxy_step hok hs
  | inr j => exact h.task_step hsize hfiles hok hs

/-- For any number of segments, proxy threads and workers, every table of files whose lengths are
positive and fit into an `int`, every size of the segments and every schedule whose steps do no
harm: every call of `handle_with_cache` that has returned and whose path is in the cache has
announced the length of its file, and the bytes given to `gfs_send` are those of the file. -/
theorem transfers_isolated (hsize : 0 < size)
    (hfiles : ∀ path file, get path = some file → 0 < file.length ∧ file.length < 2 ^ 31)
    {request : HandleRequest} {pkt : Packet} {as : Schedule threads workers}
    (hok : Along (Pool.step (code get)) (StepOk get) as
      (Cache.start request pkt : Pool (Shared n size threads workers) (ThreadLocal n threads workers)))
    (h : run (Pool.step (code get)) as (Cache.start request pkt) = some p) (t : Fin threads) :
  ∀ call ∈ (p.threads (.inl t)).calls, Served get call.path call.header call.sent
  := by
  have hkeep : ∀ a (p p' : Pool (Shared n size threads workers) (ThreadLocal n threads workers)),
      Transfers get p → StepOk get a p → Pool.step (code get) a p = some p' → Transfers get p' :=
    fun a p p' hp hok hs => Transfers.step hsize hfiles hp hok hs
  have hp := run_invariant_along hkeep (Transfers.start request pkt) hok h
  exact (hp.calls t).returned

/-! ### A late packet -/

/-- A step of the proxy thread for the path `/`. -/
def proxyAct {workers : ℕ} : Σ t : ThreadId 1 workers, ThreadAct 1 workers t :=
  ⟨.inl 0, (⟨[47], [], ⟨⟨[], 0, 0, 0, 0, 0⟩, 0⟩, 0, false⟩ : ProxyAct)⟩

/-- A step of a worker, where `pread` reads one byte. -/
def taskAct {workers : ℕ} (j : Fin workers) : Σ t : ThreadId 1 workers, ThreadAct 1 workers t :=
  ⟨.inr j, (1 : ℕ)⟩

/-- The cache with a file for the path `/`. -/
def rootFile (file : List UInt8) (path : List UInt8) : Option (List UInt8) :=
  if path = [47] then some file else none

/-- One proxy thread, with one segment of one byte. -/
def startOne (workers : ℕ) : Pool (Shared 1 1 1 workers) (ThreadLocal 1 1 workers) :=
  start (HandleRequest.start ⟨⟨[], 0, 0, 0, 0, 0⟩, 0⟩) ⟨⟨[], 0, 0, 0, 0, 0⟩, 0⟩

/-- One call for a file of one byte. -/
def oneCall : Schedule 1 1 :=
  List.replicate 6 proxyAct ++ List.replicate 5 (taskAct 0) ++ List.replicate 5 proxyAct ++
    [taskAct 0] ++ List.replicate 5 proxyAct

/-- Two calls for a file of two bytes, where the worker of the second takes the last packet for
that of the first. -/
def lateAck : Schedule 1 2 :=
  List.replicate 6 proxyAct ++ List.replicate 5 (taskAct 0) ++ List.replicate 5 proxyAct ++
    List.replicate 3 (taskAct 0) ++ List.replicate 14 proxyAct ++ List.replicate 7 (taskAct 1) ++
    List.replicate 5 proxyAct ++ [taskAct 1] ++ List.replicate 8 proxyAct

/-- The file of one byte is sent. -/
theorem transfers_isolated_one :
  ∃ p, run (Pool.step (code (rootFile [7]))) oneCall (startOne 1) = some p ∧
    (p.threads (.inl 0)).calls.length = 1 ∧
    ∀ call ∈ (p.threads (.inl 0)).calls, Served (rootFile [7]) call.path call.header call.sent
  := by
  have hrun : (run (Pool.step (code (rootFile [7]))) oneCall (startOne 1)).map
      (fun p => (p.threads (.inl 0)).calls.length) = some 1 := by decide +kernel
  obtain ⟨p, h, hlength⟩ := Option.map_eq_some_iff.mp hrun
  refine ⟨p, h, hlength, transfers_isolated (by decide) ?_ ?_ h 0⟩
  · intro path file hfile
    rw [rootFile] at hfile
    split at hfile
    · cases hfile
      decide
    · cases hfile
  · decide +kernel

/-- The second call for the file with the bytes 3 and 4 sends the byte 4 twice. -/
theorem not_transfers_isolated :
  ∃ p, run (Pool.step (code (rootFile [3, 4]))) lateAck (startOne 2) = some p ∧
    ¬ ∀ call ∈ (p.threads (.inl 0)).calls,
      Served (rootFile [3, 4]) call.path call.header call.sent
  := by
  have hrun : (run (Pool.step (code (rootFile [3, 4]))) lateAck (startOne 2)).map
      (fun p => (p.threads (.inl 0)).calls.map fun call => (call.path, call.sent)) =
      some [([47], [3, 4]), ([47], [4, 4])] := by decide +kernel
  obtain ⟨p, h, hcalls⟩ := Option.map_eq_some_iff.mp hrun
  refine ⟨p, h, ?_⟩
  intro hserved
  have hmem : (([47], [4, 4]) : List UInt8 × List UInt8) ∈
      (p.threads (.inl 0)).calls.map fun call => (call.path, call.sent) := by
    rw [hcalls]
    simp
  obtain ⟨call, hcall, heq⟩ := List.mem_map.mp hmem
  obtain ⟨hpath, hsent⟩ := Prod.mk.inj heq
  have hfile : rootFile [3, 4] call.path = some [3, 4] := by
    rw [hpath]
    rfl
  have hall := (hserved call hcall [3, 4] hfile).2
  rw [hsent] at hall
  cases hall

end GetFile.Cache
