import GetFile.Cache.Exchange

/-!
# The mode of a segment

Seen from all threads, what goes on on a segment is one exchange between at most one proxy thread
and one worker, behind the packets that other workers have not yet taken (`Mode`). This is kept by
the steps of the threads that the segment concerns, when a worker takes only a packet that is meant
for it.
-/

namespace GetFile.Cache

open CString

variable {n size threads workers : ℕ} {get : List UInt8 → Option (List UInt8)}

/-! ### The packets of other exchanges -/

/-- A step of the proxy does not touch the packets that have not been taken. -/
theorem HandleRequest.Step.frame {seg seg' : Segment size} {r r' : HandleRequest} {old cur : Mq}
    (h : HandleRequest.Step seg r seg' r') (hq : seg.proxyToCache = old ++ cur) :
  ∃ cur', seg'.proxyToCache = old ++ cur' ∧
    HandleRequest.Step { seg with proxyToCache := cur } r { seg' with proxyToCache := cur' } r'
  := by
  cases h with
  | filesize pkt rest pc first => exact ⟨cur, hq, .filesize pkt rest pc first⟩
  | hit pc hit => exact ⟨cur, hq, .hit pc hit⟩
  | miss answer pc miss => exact ⟨cur, hq, .miss answer pc miss⟩
  | data pkt rest pc first => exact ⟨cur, hq, .data pkt rest pc first⟩
  | gfsSend pc => exact ⟨cur, hq, HandleRequest.Step.gfsSend pc⟩
  | ack pc =>
      refine ⟨cur ++ [r.thrPkt], ?_, .ack pc⟩
      rw [hq, List.append_assoc]

/-- Neither does a step of the worker, when it takes no such packet. -/
theorem Task.Step.frame {num : ℕ} {seg seg' : Segment size} {w w' : Task n} {old cur : Mq}
    (h : Task.Step num seg w seg' w') (hq : seg.proxyToCache = old ++ cur)
    (hack : w.pc = .ack → old = []) :
  ∃ cur', seg'.proxyToCache = old ++ cur' ∧
    Task.Step num { seg with proxyToCache := cur } w { seg' with proxyToCache := cur' } w'
  := by
  cases h with
  | miss pc => exact ⟨cur, hq, .miss pc⟩
  | hit pc => exact ⟨cur, hq, .hit pc⟩
  | fail pc => exact ⟨cur, hq, .fail pc⟩
  | pread k pc pos chunk file => exact ⟨cur, hq, .pread k pc pos chunk file⟩
  | sendData pc => exact ⟨cur, hq, .sendData pc⟩
  | ack pkt rest pc first =>
      rw [hack pc, List.nil_append] at hq
      refine ⟨rest, by rw [hack pc, List.nil_append], .ack pkt rest pc ?_⟩
      rw [← hq, first]

/-! ### What goes on on a segment, for all threads -/

/-- The proxy thread is in `handle_request` on segment `i`, and has sent its packet. -/
def Proxy.On (i : Fin n) (x : Proxy n) : Prop :=
  x.pc = .request i ∧ x.request.pc ≠ .send ∧ x.request.pc ≠ .done

/-- The worker serves a request for segment `i`. -/
def Task.On (i : Fin n) (w : Task n) : Prop :=
  if w.pc = .lookup then w.thrPkt.segmentIndex = i else w.pc ≠ .wait ∧ w.seg = some i

instance (i : Fin n) (x : Proxy n) : Decidable (x.On i) :=
  inferInstanceAs (Decidable (_ ∧ _ ∧ _))

instance (i : Fin n) (w : Task n) : Decidable (w.On i) :=
  inferInstanceAs (Decidable (ite _ _ _))

/-- The proxy thread as far as segment `i` is concerned. -/
def proxyOn (i : Fin n) (x : Proxy n) : Option (Proxy n) :=
  if x.On i then some x else none

/-- The worker as far as segment `i` is concerned. -/
def taskOn (i : Fin n) (w : Task n) : Option (Task n) :=
  if w.On i then some w else none

/-- One thread at most is concerned. -/
def single {k : ℕ} {α : Type} : Option (Fin k × α) → Fin k → Option α
  | none => fun _ => none
  | some (t, x) => Function.update (fun _ => none) t (some x)

/-- The workers but for the partner of the exchange. -/
def without {k : ℕ} {α : Type} (tasks : Fin k → Option α) :
    Option (Fin k × α) → Fin k → Option α
  | none => tasks
  | some (j, _) => Function.update tasks j none

/-- One exchange goes on on segment `i`, behind the packets `old` that have not been taken. -/
structure Mode (get : List UInt8 → Option (List UInt8)) (i : Fin n) (ctrl : Mq)
    (seg : Segment size) (proxies : Fin threads → Option (Proxy n))
    (tasks : Fin workers → Option (Task n)) (old cur : Mq) (proxy : Option (Fin threads × Proxy n))
    (partner : Option (Fin workers × Task n)) : Prop where
  toCache : seg.proxyToCache = old ++ cur
  concerned : proxies = single proxy
  task : ∀ j w, partner = some (j, w) → tasks j = some w
  late : Late old (without tasks partner)
  exchange : Exchange get i ctrl { seg with proxyToCache := cur } (proxy.map Prod.snd) partner

/-- One exchange goes on on segment `i`. -/
def InMode (get : List UInt8 → Option (List UInt8)) (i : Fin n) (ctrl : Mq)
    (seg : Segment size) (proxies : Fin threads → Option (Proxy n))
    (tasks : Fin workers → Option (Task n)) : Prop :=
  ∃ old cur proxy partner, Mode get i ctrl seg proxies tasks old cur proxy partner

variable {i : Fin n} {ctrl : Mq} {seg seg' : Segment size}
  {proxies : Fin threads → Option (Proxy n)} {tasks : Fin workers → Option (Task n)} {old cur : Mq}
  {proxy : Option (Fin threads × Proxy n)} {partner : Option (Fin workers × Task n)}
  {t : Fin threads} {x : Proxy n} {j : Fin workers} {w w' : Task n}

/-- A proxy thread that is concerned is the one of the exchange. -/
theorem Mode.proxy_eq (h : Mode get i ctrl seg proxies tasks old cur proxy partner)
    (hx : proxies t = some x) :
  proxy = some (t, x)
  := by
  rw [h.concerned] at hx
  cases proxy with
  | none => cases hx
  | some y =>
      obtain ⟨u, y⟩ := y
      by_cases hu : t = u
      · subst hu
        rw [single, Function.update_self] at hx
        cases hx
        rfl
      · rw [single, Function.update_of_ne hu] at hx
        cases hx

/-- A worker that is concerned is the partner in the exchange, or it waits for one of the packets
that have not been taken. -/
theorem Mode.task_cases (h : Mode get i ctrl seg proxies tasks old cur proxy partner)
    (hw : tasks j = some w) :
  partner = some (j, w) ∨ ∃ pkt ∈ old, pkt.worker = j ∧ Waits pkt w
  := by
  have hlate := h.late
  cases hpartner : partner with
  | none =>
      rw [hpartner] at hlate
      exact Or.inr (hlate.waits_of hw)
  | some y =>
      obtain ⟨j', w'⟩ := y
      by_cases hj : j = j'
      · subst hj
        have htask := h.task j w' hpartner
        rw [hw] at htask
        cases htask
        exact Or.inl rfl
      · rw [hpartner] at hlate
        have hw' : without tasks (some (j', w')) j = some w := by
          rw [without, Function.update_of_ne hj, hw]
        exact Or.inr (hlate.waits_of hw')

/-- The workers but for the partner are as they are. -/
theorem without_eq_some {k : ℕ} {α : Type} {f : Fin k → Option α} {a : Option (Fin k × α)}
    {t : Fin k} {x : α} (h : without f a t = some x) :
  f t = some x ∧ ∀ y, a ≠ some (t, y)
  := by
  cases a with
  | none => exact ⟨h, nofun⟩
  | some y =>
      obtain ⟨u, y⟩ := y
      rw [without] at h
      by_cases hu : t = u
      · subst hu
        rw [Function.update_self] at h
        cases h
      · rw [Function.update_of_ne hu] at h
        refine ⟨h, ?_⟩
        rintro y' ⟨⟩
        exact hu rfl

/-- Leaving out one more. -/
theorem without_update {k : ℕ} {α : Type} (f : Fin k → Option α) (a : Option (Fin k × α))
    (t : Fin k) :
  without (Function.update f t none) a = Function.update (without f a) t none
  := by
  cases a with
  | none => rfl
  | some y =>
      obtain ⟨u, y⟩ := y
      rw [without, without]
      by_cases hu : t = u
      · rw [hu]
      · rw [Function.update_comm hu]

/-- No packet that has not been taken is for the partner. -/
theorem Mode.partner_ne (h : Mode get i ctrl seg proxies tasks old cur proxy partner)
    {pkt : Packet} (hpkt : pkt ∈ old) (hworker : pkt.worker = j) (w : Task n) :
  partner ≠ some (j, w)
  := by
  obtain ⟨j', w', hworker', hw', -⟩ := h.late.waits pkt hpkt
  have hj : j' = j := Fin.ext (hworker'.symm.trans hworker)
  subst hj
  exact (without_eq_some hw').2 w

/-- The worker of the first packet takes it, and waits for the next request. -/
theorem Mode.take {pkt : Packet}
    (h : Mode get i ctrl seg proxies tasks (pkt :: old) cur proxy partner) (hw : tasks j = some w)
    (hpkt : pkt.worker = j) (hs : Task.Step j seg w seg' w') :
  w'.pc = .wait ∧ seg' = { seg with proxyToCache := old ++ cur }
  := by
  obtain ⟨j', w'', hworker, hw'', hwaits⟩ := h.late.waits pkt List.mem_cons_self
  have hj : j' = j := Fin.ext (hworker.symm.trans hpkt)
  subst hj
  have htask := (without_eq_some hw'').1
  rw [hw] at htask
  cases htask
  have hpc := hwaits.pc
  cases hs with
  | ack first rest _ hfirst =>
      rw [h.toCache, List.cons_append] at hfirst
      cases hfirst
      constructor
      · have hall := hwaits.all
        simp only [Task.loop]
        rw [if_neg (by omega)]
      · rfl
  | miss pc | hit pc | fail pc | pread _ pc | sendData pc => simp [hpc] at pc

/-- The proxy thread sends its packet. -/
theorem InMode.send (h : InMode get i ctrl seg proxies tasks) (hnone : proxies = fun _ => none)
    {req : Packet} (hasks : AsksFor get size i x.path req) (hx : Unanswered x.request)
    (t : Fin threads) :
  InMode get i (ctrl ++ [req]) seg (Function.update proxies t (some x)) tasks
  := by
  obtain ⟨old, cur, proxy, partner, hmode⟩ := h
  have hexchange := hmode.exchange
  cases proxy with
  | some y =>
      have hsome : proxies y.1 = some y.2 := by
        rw [hmode.concerned, single, Function.update_self]
      rw [hnone] at hsome
      cases hsome
  | none =>
      rw [Option.map_none] at hexchange
      cases hexchange with
      | quiet noRequest toProxy toCache =>
          refine ⟨old, cur, some (t, x), none, hmode.toCache, ?_, by rintro _ _ ⟨⟩, hmode.late, ?_⟩
          · rw [hnone]
            rfl
          · exact .requested hasks hx (by rw [noRequest, List.nil_append]) toProxy toCache

/-- The proxy thread takes another step in `handle_request`. -/
theorem InMode.proxy_step (h : InMode get i ctrl seg proxies tasks) (hx : proxies t = some x)
    {r : HandleRequest} (hs : HandleRequest.Step seg x.request seg' r) :
  InMode get i ctrl seg' (Function.update proxies t
      (if r.pc = .done then none else some { x with pc := .request i, request := r })) tasks ∧
    (r.pc = .done → Served get x.path r.header r.sent)
  := by
  obtain ⟨old, cur, proxy, partner, hmode⟩ := h
  obtain rfl := hmode.proxy_eq hx
  have hproxies : ∀ y, Function.update proxies t y = Function.update (fun _ => none) t y := by
    intro y
    rw [hmode.concerned, single, Function.update_idem]
  obtain ⟨cur', htoCache, hframe⟩ := hs.frame hmode.toCache
  have hexchange := hmode.exchange
  rw [Option.map_some] at hexchange
  obtain ⟨hbusy, hexchange'⟩ | ⟨hdone, hserved, hctrl, htoProxy, hend⟩ :=
    hexchange.proxy_step hframe
  · refine ⟨⟨old, cur', some (t, _), partner, htoCache, ?_, hmode.task, hmode.late, hexchange'⟩,
      fun hdone => absurd hdone hbusy⟩
    rw [if_neg hbusy, hproxies]
    rfl
  · refine ⟨?_, fun _ => hserved⟩
    rw [if_pos hdone, hproxies, Function.update_eq_self]
    obtain ⟨rfl, hnil⟩ | ⟨j, w, pkt, rfl, hlast, hworker, hwaits⟩ := hend
    · refine ⟨old, [], none, none, ?_, rfl, by rintro _ _ ⟨⟩, hmode.late, .quiet hctrl htoProxy rfl⟩
      rw [htoCache, show cur' = [] from hnil]
    · refine ⟨old ++ [pkt], [], none, none, ?_, rfl, by rintro _ _ ⟨⟩, ?_, .quiet hctrl htoProxy rfl⟩
      · rw [htoCache, show cur' = [pkt] from hlast, List.append_nil]
      · exact hmode.late.append (hmode.task j w rfl) hworker hwaits

/-- A worker takes the request. -/
theorem InMode.receive {pkt : Packet} (h : InMode get i (pkt :: ctrl) seg proxies tasks)
    (hj : tasks j = none) :
  InMode get i ctrl seg proxies (Function.update tasks j (some (Task.request pkt)))
  := by
  obtain ⟨old, cur, proxy, partner, hmode⟩ := h
  obtain ⟨rfl, rfl, hexchange⟩ := hmode.exchange.receive j
  refine ⟨old, cur, proxy, some (j, Task.request pkt), hmode.toCache, hmode.concerned, ?_, ?_,
    hexchange⟩
  · rintro j' w' ⟨⟩
    rw [Function.update_self]
  · have hlate : Late old tasks := hmode.late
    rw [without, Function.update_idem, ← hj, Function.update_eq_self]
    exact hlate

/-- A worker that looks the file up is the partner in the exchange. -/
theorem InMode.lookup (hsize : 0 < size)
    (hfiles : ∀ path file, get path = some file → 0 < file.length ∧ file.length < 2 ^ 31)
    (h : InMode get i ctrl seg proxies tasks) (hw : tasks j = some w) (hpc : w.pc = .lookup) :
  InMode get i ctrl seg proxies (Function.update tasks j (some (w.lookup get j size)))
  := by
  obtain ⟨old, cur, proxy, partner, hmode⟩ := h
  obtain rfl | ⟨pkt, -, -, hwaits⟩ := hmode.task_cases hw
  · refine ⟨old, cur, proxy, some (j, w.lookup get j size), hmode.toCache, hmode.concerned, ?_, ?_,
      hmode.exchange.lookup hsize hfiles hpc⟩
    · rintro j' w' ⟨⟩
      rw [Function.update_self]
    · have hlate := hmode.late
      rw [without] at hlate ⊢
      rw [Function.update_idem]
      exact hlate
  · rw [hwaits.pc] at hpc
    cases hpc

/-- A worker takes a step on the segment: it is the partner in the exchange, or it takes the packet
that it still waits for. -/
theorem InMode.task_step (h : InMode get i ctrl seg proxies tasks) (hw : tasks j = some w)
    (hs : Task.Step j seg w seg' w')
    (hown : w.pc = .ack → ∀ pkt rest, seg.proxyToCache = pkt :: rest → pkt.worker = j) :
  InMode get i ctrl seg' proxies
    (Function.update tasks j (if w'.pc = .wait ∨ w'.pc = .lookup then none else some w'))
  := by
  obtain ⟨old, cur, proxy, partner, hmode⟩ := h
  obtain rfl | ⟨pkt, hpkt, hworker, hwaits⟩ := hmode.task_cases hw
  · have hack : w.pc = .ack → old = [] := by
      intro hpc
      cases hold : old with
      | nil => rfl
      | cons pkt rest =>
          have hfirst := hown hpc pkt (rest ++ cur) (by rw [hmode.toCache, hold]; rfl)
          exact absurd rfl (hmode.partner_ne (by rw [hold]; exact List.mem_cons_self) hfirst w)
    have hlate := hmode.late
    obtain ⟨cur', htoCache, hframe⟩ := hs.frame hmode.toCache hack
    obtain ⟨hwait, hlookup, hexchange⟩ | ⟨hwait, hexchange⟩ := hmode.exchange.task_step hframe
    · rw [if_neg (not_or.mpr ⟨hwait, hlookup⟩)]
      refine ⟨old, cur', proxy, some (j, w'), htoCache, hmode.concerned, ?_, ?_, hexchange⟩
      · rintro j' w'' ⟨⟩
        rw [Function.update_self]
      · rw [without] at hlate ⊢
        rw [Function.update_idem]
        exact hlate
    · rw [if_pos (Or.inl hwait)]
      exact ⟨old, cur', proxy, none, htoCache, hmode.concerned, by rintro _ _ ⟨⟩, hlate, hexchange⟩
  · obtain ⟨first, rest, rfl⟩ := List.exists_cons_of_ne_nil (List.ne_nil_of_mem hpkt)
    have hfirst := hown hwaits.pc first (rest ++ cur) hmode.toCache
    obtain ⟨hpc, rfl⟩ := hmode.take hw hfirst hs
    rw [if_pos (Or.inl hpc)]
    refine ⟨rest, cur, proxy, partner, rfl, hmode.concerned, ?_, ?_, hmode.exchange⟩
    · intro j' w'' hpartner
      rw [Function.update_of_ne]
      · exact hmode.task j' w'' hpartner
      · rintro rfl
        exact hmode.partner_ne List.mem_cons_self hfirst w'' hpartner
    · rw [without_update]
      exact hmode.late.tail hfirst

end GetFile.Cache
