import GetFile.Cache.HandleRequest
import GetFile.CString.Int
import GetFile.Transition.Loop

/-!
# The handler with libcurl

`handle_with_file` of the proxy asks the origin for the length of a file and announces it, and
then performs full transfers until it has sent that many bytes. `write_callback` adds what a
transfer delivers to a lump that is sent after each of them and never emptied. So the handler
sends what it has announced exactly when one transfer is enough
(`handleWithFile_sendsBody_iff`).
-/

namespace GetFile.Curl

open CString Transition Cache

/-- A full `curl_easy_perform`: the data of the calls of `write_callback`, and whether it returns
`CURLE_OK`. -/
structure Perform where
  lumps : List (List UInt8)
  ok : Bool
  deriving DecidableEq

/-- What a perform delivers. -/
def Perform.body (p : Perform) : List UInt8 :=
  p.lumps.flatten

/-- What the handler meets: whether `curl_easy_getinfo` finds a length after the transfer without
a body, the length, which is negative if the origin gives none, and the response code, the full
transfers that can follow, what the calls of `gfs_send` return, and for which sizes `realloc`
finds memory. No object is larger than `PTRDIFF_MAX`. -/
structure Origin where
  infoOk : Bool
  filesize : ℤ
  httpRespCode : ℤ
  performs : List Perform
  sends : ℕ → ℤ
  realloc : ℕ → Bool
  realloc_lt : ∀ n, realloc n = true → n < 2 ^ 63

/-- The `double` `filesize` converted to `size_t`. There is no result when the type does not hold
it. -/
def announced (filesize : ℤ) : Option ℕ :=
  if 0 ≤ filesize ∧ filesize < 2 ^ 64 then some filesize.toNat else none

/-- `write_callback`, which adds to the `mem_data_t`. There is no result when it exits. -/
def writeCallback (o : Origin) (mem data : List UInt8) : Option (List UInt8) :=
  if o.realloc (mem.length + data.length + 1) then some (mem ++ data) else none

/-- The calls of `write_callback` of a perform. -/
def Perform.write (p : Perform) (o : Origin) (mem : List UInt8) : Option (List UInt8) :=
  p.lumps.foldlM (writeCallback o) mem

/-- The variables of the loop, with the data given to each `gfs_send` and the performs made. -/
structure Transfer where
  lump : List UInt8
  bytesTransferred : ℤ
  chunks : List (List UInt8)
  performed : List Perform

/-- How the handler ends: with the answer that the file is not there, without an answer, with a
failed transfer, with a failed assertion, not yet, or behind the loop with the number of bytes. -/
inductive Ending where
  | notFound
  | refused
  | failed
  | exited
  | waiting
  | finished (bytesTransferred : ℤ)
  deriving DecidableEq

/-- The handler at its end: the status and the length given to `gfs_sendheader`, the data given to
each `gfs_send`, and the performs made. -/
structure Handled where
  ending : Ending
  header : Option (Status × Option ℕ)
  chunks : List (List UInt8)
  performed : List Perform
  deriving DecidableEq

/-- Leaving the loop. -/
def Transfer.leave (t : Transfer) (o : Origin) (ending : Ending) : Handled :=
  ⟨ending, some (.ok, announced o.filesize), t.chunks, t.performed⟩

/-- The next round of the loop, with the next perform of libcurl. -/
def transferRound (o : Origin) (t : Transfer) (p : Perform) : Round Transfer Handled :=
  if t.bytesTransferred < o.filesize then
    match p.write o t.lump with
    | none => .leave (t.leave o .exited)
    | some lump =>
      if p.ok then
        let writeLen := asInt (o.sends t.performed.length)
        let t' : Transfer :=
          { lump
            bytesTransferred := asInt (t.bytesTransferred + writeLen)
            chunks := t.chunks ++ [lump]
            performed := t.performed ++ [p] }
        if sizeT writeLen = lump.length then .again t' else .leave (t'.leave o .exited)
      else .leave (t.leave o .failed)
  else .leave (t.leave o (.finished t.bytesTransferred))

/-- The handler in front of a perform that has not come yet. -/
def transferWait (o : Origin) (t : Transfer) : Handled :=
  if t.bytesTransferred < o.filesize then t.leave o .waiting
  else t.leave o (.finished t.bytesTransferred)

/-- The loop starts with an empty lump. -/
def Transfer.start : Transfer :=
  ⟨[], 0, [], []⟩

/-- `handle_with_file`. -/
def handleWithFile (o : Origin) : Handled :=
  if o.infoOk = false then ⟨.notFound, some (.fileNotFound, some 0), [], []⟩
  else if o.httpRespCode = 404 ∨ o.httpRespCode = 403 then
    ⟨.notFound, some (.fileNotFound, some o.httpRespCode.toNat), [], []⟩
  else if o.httpRespCode ≠ 200 then ⟨.refused, none, [], []⟩
  else feed (transferRound o) (transferWait o) .start o.performs

/-! ### What the handler should send -/

/-- What the performs have delivered. -/
def delivered (performed : List Perform) : List UInt8 :=
  (performed.map Perform.body).flatten

/-- Every byte that has been delivered is sent once, and the header announces their number. -/
structure SendsBody (h : Handled) : Prop where
  once : h.chunks.flatten = delivered h.performed
  length : h.header = some (.ok, some h.chunks.flatten.length)

/-- What the first perform delivers that delivers anything. -/
def firstDelivery (performs : List Perform) : Option (List UInt8) :=
  (performs.map Perform.body).find? (!·.isEmpty)

/-- The origin gives a length, and unless it is zero the first perform that delivers anything
delivers as many bytes. -/
def Agrees (o : Origin) : Prop :=
  o.filesize = 0 ∨
    0 < o.filesize ∧ ∃ d, firstDelivery o.performs = some d ∧ (d.length : ℤ) = o.filesize

variable {o : Origin} {t : Transfer} {p : Perform} {performs : List Perform}

/-! ### One round -/

/-- The calls of `write_callback` add what the perform delivers, in objects that are not too
large. -/
theorem Perform.write_eq_some {mem mem' : List UInt8} (h : p.write o mem = some mem')
    (hmem : mem.length < 2 ^ 63) :
  mem' = mem ++ p.body ∧ mem'.length < 2 ^ 63
  := by
  obtain ⟨lumps, ok⟩ := p
  simp only [write, body] at h ⊢
  induction lumps generalizing mem with
  | nil =>
      cases h
      simpa using hmem
  | cons data lumps ih =>
      rw [List.foldlM_cons, writeCallback] at h
      split at h
      · rename_i hrealloc
        have hlt := o.realloc_lt _ hrealloc
        obtain ⟨hmem', hlt'⟩ := ih (by rw [List.length_append]; omega) h
        exact ⟨by rw [hmem', List.flatten_cons, List.append_assoc], hlt'⟩
      · cases h

/-- An `int` that is equal to a `size_t` below `2 ^ 63` is that number. -/
theorem eq_of_sizeT {z : ℤ} {n : ℕ} (h : sizeT (asInt z) = n) (hn : n < 2 ^ 63) :
  asInt z = n ∧ n < 2 ^ 31
  := by
  have hrange := asInt_range z
  rw [sizeT] at h
  omega

/-- A round that goes on. -/
def Transfer.next (t : Transfer) (p : Perform) : Transfer where
  lump := t.lump ++ p.body
  bytesTransferred := asInt (t.bytesTransferred + (t.lump ++ p.body).length)
  chunks := t.chunks ++ [t.lump ++ p.body]
  performed := t.performed ++ [p]

/-- What a round does: it ends the loop, it sends the lump, or the handler ends in another way. -/
inductive RoundCase (o : Origin) (t : Transfer) (p : Perform) : Round Transfer Handled → Prop where
  | loopEnds (done : ¬ t.bytesTransferred < o.filesize) :
      RoundCase o t p (.leave (t.leave o (.finished t.bytesTransferred)))
  | sent (more : t.bytesTransferred < o.filesize) (small : (t.lump ++ p.body).length < 2 ^ 31) :
      RoundCase o t p (.again (t.next p))
  | broken {h : Handled} (more : t.bytesTransferred < o.filesize)
      (ending : ∀ bytes, h.ending ≠ .finished bytes) : RoundCase o t p (.leave h)

theorem transferRound_spec (o : Origin) (p : Perform) (hlump : t.lump.length < 2 ^ 63) :
  RoundCase o t p (transferRound o t p)
  := by
  rw [transferRound]
  split
  · rename_i hmore
    cases hwrite : p.write o t.lump with
    | none => exact .broken hmore (by simp [Transfer.leave])
    | some lump =>
        obtain ⟨rfl, hlt⟩ := Perform.write_eq_some hwrite hlump
        dsimp only
        split
        · split
          · rename_i hassert
            obtain ⟨hlen, hsmall⟩ := eq_of_sizeT hassert hlt
            rw [hlen]
            exact .sent hmore hsmall
          · exact .broken hmore (by simp [Transfer.leave])
        · exact .broken hmore (by simp [Transfer.leave])
  · rename_i hdone
    exact .loopEnds hdone

/-- Where enough has been sent, the loop ends. -/
theorem feed_over (h : ¬ t.bytesTransferred < o.filesize) (performs : List Perform) :
  feed (transferRound o) (transferWait o) t performs =
    t.leave o (.finished t.bytesTransferred)
  := by
  cases performs with
  | nil => exact if_neg h
  | cons p performs => exact feed_leave (if_neg h)

/-- Where more is to be sent, the loop comes to its end only with a further perform, whose round
goes on. -/
theorem feed_more (hlump : t.lump.length < 2 ^ 63) (hmore : t.bytesTransferred < o.filesize)
    {bytes : ℤ}
    (hending : (feed (transferRound o) (transferWait o) t performs).ending = .finished bytes) :
  ∃ p rest, performs = p :: rest ∧ (t.lump ++ p.body).length < 2 ^ 31 ∧
    feed (transferRound o) (transferWait o) t performs =
      feed (transferRound o) (transferWait o) (t.next p) rest
  := by
  cases performs with
  | nil =>
      rw [feed_nil, transferWait, if_pos hmore] at hending
      cases hending
  | cons p rest =>
      have hspec := transferRound_spec o p hlump
      rw [feed_cons] at hending ⊢
      generalize transferRound o t p = round at hspec hending ⊢
      cases hspec with
      | loopEnds done => exact absurd hmore done
      | broken more ending => exact absurd hending (ending bytes)
      | sent more small => exact ⟨p, rest, rfl, small, rfl⟩

/-! ### The whole loop -/

/-- The lump is what the performs have delivered, in an object that is not too large. -/
structure Keeps (t : Transfer) : Prop where
  lump : t.lump = delivered t.performed
  small : t.lump.length < 2 ^ 63

theorem keeps_start :
  Keeps .start
  where
  lump := rfl
  small := by decide

theorem Keeps.next (h : Keeps t) (hsmall : (t.lump ++ p.body).length < 2 ^ 31) :
  Keeps (t.next p)
  where
  lump := by simp [Transfer.next, h.lump, delivered]
  small := by
    rw [Transfer.next]
    exact hsmall.trans (by decide)

/-- A round sends the lump again, with what has been added to it. -/
theorem sent_next (t : Transfer) (p : Perform) :
  (t.next p).chunks.flatten = t.chunks.flatten ++ (t.lump ++ p.body)
  := by
  simp [Transfer.next]

/-- When the handler leaves, it has sent the body exactly when it has sent the lump once and
announced its length. -/
theorem Keeps.sendsBody_iff (h : Keeps t) {ending : Ending} :
  SendsBody (t.leave o ending) ↔
    t.chunks.flatten = t.lump ∧ announced o.filesize = some t.chunks.flatten.length
  := by
  rw [h.lump]
  constructor
  · rintro ⟨honce, hlength⟩
    exact ⟨honce, (Prod.mk.inj (Option.some.inj hlength)).2⟩
  · rintro ⟨honce, hlength⟩
    exact ⟨honce, congrArg (fun n => some (Status.ok, n)) hlength⟩

/-- The number that a length announces. -/
theorem announced_eq_some {filesize : ℤ} {n : ℕ} (h : announced filesize = some n) :
  filesize = n
  := by
  rw [announced] at h
  split at h
  · cases h
    omega
  · cases h

/-- Where more has been sent than delivered, the body has not been sent once. -/
theorem Keeps.not_sendsBody_leave (h : Keeps t) (hmore : t.lump.length < t.chunks.flatten.length)
    (ending : Ending) :
  ¬ SendsBody (t.leave o ending)
  := by
  intro hsends
  have heq := congrArg List.length (h.sendsBody_iff.mp hsends).1
  omega

/-- Once more has been sent than delivered, this stays so. -/
theorem Keeps.not_sendsBody (h : Keeps t) (hmore : t.lump.length < t.chunks.flatten.length)
    {bytes : ℤ} (hending : (feed (transferRound o) (transferWait o) t performs).ending =
      .finished bytes) :
  ¬ SendsBody (feed (transferRound o) (transferWait o) t performs)
  := by
  induction performs generalizing t with
  | nil =>
      have hdone : ¬ t.bytesTransferred < o.filesize := by
        intro hloop
        obtain ⟨p, rest, hcons, -⟩ := feed_more h.small hloop hending
        cases hcons
      rw [feed_over hdone]
      exact h.not_sendsBody_leave hmore _
  | cons p performs ih =>
      by_cases hloop : t.bytesTransferred < o.filesize
      · obtain ⟨p', rest, hcons, hsmall, hnext⟩ := feed_more h.small hloop hending
        cases hcons
        have hlump : (t.next p).lump = t.lump ++ p.body := rfl
        rw [hnext] at hending ⊢
        apply ih (h.next hsmall) _ hending
        rw [sent_next, List.length_append, hlump]
        omega
      · rw [feed_over hloop]
        exact h.not_sendsBody_leave hmore _

/-- The first perform that delivers something is not an empty one. -/
theorem firstDelivery_cons_of_nil (hp : p.body = []) :
  firstDelivery (p :: performs) = firstDelivery performs
  := by
  simp [firstDelivery, hp]

theorem firstDelivery_cons (hp : p.body ≠ []) :
  firstDelivery (p :: performs) = some p.body
  := by
  simp [firstDelivery, hp]

/-- Once something has been sent, the body has been sent in full exactly when its length was
announced. -/
theorem Keeps.sendsBody_iff_of_first (h : Keeps t) (hpos : t.lump ≠ [])
    (honce : t.chunks.flatten = t.lump) (hbytes : t.bytesTransferred = t.lump.length)
    (hsmall : t.lump.length < 2 ^ 31) {bytes : ℤ}
    (hending : (feed (transferRound o) (transferWait o) t performs).ending = .finished bytes) :
  SendsBody (feed (transferRound o) (transferWait o) t performs) ↔
    (t.lump.length : ℤ) = o.filesize
  := by
  by_cases hmore : t.bytesTransferred < o.filesize
  · -- the loop goes on, and the lump is sent twice
    apply iff_of_false _ (by omega)
    obtain ⟨p, rest, -, small, hnext⟩ := feed_more h.small hmore hending
    have hlump : (t.next p).lump = t.lump ++ p.body := rfl
    have hlength := List.length_pos_iff.mpr hpos
    rw [hnext] at hending ⊢
    apply (h.next small).not_sendsBody _ hending
    rw [sent_next, honce, List.length_append, hlump]
    omega
  · rw [feed_over hmore, h.sendsBody_iff, honce]
    constructor
    · rintro ⟨-, hannounced⟩
      exact (announced_eq_some hannounced).symm
    · intro hlength
      refine ⟨rfl, ?_⟩
      rw [← hlength, announced, if_pos (by omega), Int.toNat_natCast]

/-- As long as nothing has been delivered, what counts is the first perform that delivers
something. -/
theorem Keeps.sendsBody_iff_of_nothing (h : Keeps t) (hnil : t.lump = [])
    (hnone : t.chunks.flatten = []) (hbytes : t.bytesTransferred = 0) (hpos : 0 < o.filesize)
    {bytes : ℤ}
    (hending : (feed (transferRound o) (transferWait o) t performs).ending = .finished bytes) :
  SendsBody (feed (transferRound o) (transferWait o) t performs) ↔
    ∃ d, firstDelivery performs = some d ∧ (d.length : ℤ) = o.filesize
  := by
  induction performs generalizing t with
  | nil =>
      obtain ⟨p, rest, hcons, -⟩ := feed_more h.small (by omega) hending
      cases hcons
  | cons p performs ih =>
      obtain ⟨p', rest, hcons, small, hnext⟩ := feed_more h.small (by omega) hending
      cases hcons
      rw [hnext] at hending ⊢
      have hlump : (t.next p).lump = p.body := by
        rw [Transfer.next, hnil, List.nil_append]
      have hsent : (t.next p).chunks.flatten = p.body := by
        rw [sent_next, hnone, hnil, List.nil_append, List.nil_append]
      rw [hnil, List.nil_append] at small
      have hbytes' : (t.next p).bytesTransferred = p.body.length := by
        rw [Transfer.next, hnil, hbytes, List.nil_append, Int.zero_add,
          asInt_eq (by omega) (by omega)]
      have hkeeps : Keeps (t.next p) := h.next (by rwa [hnil, List.nil_append])
      by_cases hbody : p.body = []
      · rw [firstDelivery_cons_of_nil hbody]
        rw [hbody] at hlump hsent hbytes'
        exact ih hkeeps hlump hsent hbytes' hending
      · rw [firstDelivery_cons hbody]
        rw [← hlump] at hbody small hbytes' hsent ⊢
        rw [hkeeps.sendsBody_iff_of_first hbody hsent hbytes' small hending]
        simp

/-- The handler ends behind the loop only when it has reached it. -/
theorem handleWithFile_finished {bytes : ℤ} (hending : (handleWithFile o).ending = .finished bytes) :
  handleWithFile o = feed (transferRound o) (transferWait o) .start o.performs
  := by
  rw [handleWithFile] at hending ⊢
  by_cases hinfo : o.infoOk = false
  · rw [if_pos hinfo] at hending
    cases hending
  · rw [if_neg hinfo] at hending ⊢
    by_cases hnotFound : o.httpRespCode = 404 ∨ o.httpRespCode = 403
    · rw [if_pos hnotFound] at hending
      cases hending
    · rw [if_neg hnotFound] at hending ⊢
      by_cases hok : o.httpRespCode ≠ 200
      · rw [if_pos hok] at hending
        cases hending
      · rw [if_neg hok]

/-- In every behaviour of libcurl, of `gfs_send` and of `realloc` in which the loop comes to its
end: each byte delivered is sent once and the header announces their number if and only if the
origin gives a length, and it is zero or the first perform that delivers anything delivers as many
bytes. -/
theorem handleWithFile_sendsBody_iff (o : Origin) {bytes : ℤ}
    (hending : (handleWithFile o).ending = .finished bytes) :
  SendsBody (handleWithFile o) ↔ Agrees o
  := by
  have hrun := handleWithFile_finished hending
  rw [hrun] at hending ⊢
  by_cases hpos : 0 < o.filesize
  · rw [keeps_start.sendsBody_iff_of_nothing rfl rfl rfl hpos hending, Agrees]
    simp [hpos, hpos.ne']
  · rw [feed_over hpos, keeps_start.sendsBody_iff, Agrees]
    constructor
    · rintro ⟨-, hannounced⟩
      exact .inl (announced_eq_some hannounced)
    · rintro (hzero | ⟨hpos', -⟩)
      · rw [hzero]
        exact ⟨rfl, rfl⟩
      · exact absurd hpos' hpos

/-- An origin with a file of three bytes that come in two lumps. -/
def threeBytes : Origin where
  infoOk := true
  filesize := 3
  httpRespCode := 200
  performs := [⟨[ascii "ab", ascii "c"], true⟩]
  sends _ := 3
  realloc n := n < 100
  realloc_lt n h := lt_trans (of_decide_eq_true h) (by decide)

theorem handleWithFile_sendsBody_iff_threeBytes :
  SendsBody (handleWithFile threeBytes) ↔ Agrees threeBytes
  := handleWithFile_sendsBody_iff threeBytes (by decide : _ = Ending.finished 3)

/-- An origin that announces four bytes and delivers them in two performs. -/
def twoPerforms : Origin where
  infoOk := true
  filesize := 4
  httpRespCode := 200
  performs := [⟨[ascii "ab"], true⟩, ⟨[ascii "cd"], true⟩]
  sends n := if n = 0 then 2 else 4
  realloc n := n < 100
  realloc_lt n h := lt_trans (of_decide_eq_true h) (by decide)

/-- The bytes of the first perform are sent twice. -/
theorem handleWithFile_twoPerforms :
  handleWithFile twoPerforms =
      ⟨.finished 6, some (.ok, some 4), [ascii "ab", ascii "abcd"], twoPerforms.performs⟩ ∧
    ¬ SendsBody (handleWithFile twoPerforms)
  := by
  have hrun : handleWithFile twoPerforms =
      ⟨.finished 6, some (.ok, some 4), [ascii "ab", ascii "abcd"], twoPerforms.performs⟩ := by
    decide
  refine ⟨hrun, ?_⟩
  rintro ⟨honce, -⟩
  rw [hrun] at honce
  revert honce
  decide

end GetFile.Curl
