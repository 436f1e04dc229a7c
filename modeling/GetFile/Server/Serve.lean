import GetFile.CString.Decimal
import GetFile.Server.Opening

/-!
# Server: when the handler is called

One round of the loop of `gfserver_serve` reads a request and then either calls the handler
with the path or answers with a `FILE_NOT_FOUND` header. Since `process_request` returns the
code for calling the handler at every end of the input, a round is right (`ServedRight`)
exactly when the steps of `process_request` are `StepOk`: the input ends only behind a
complete request, and a complete request is read in pieces that the parsers can take.
-/

namespace GetFile.Server

open CString Transition

/-! ### One round of `gfserver_serve` -/

def gfsStrstatus : Status → List UInt8
  | .ok => ascii "OK"
  | .fileNotFound => ascii "FILE_NOT_FOUND"
  | .error => ascii "ERROR"

/-- The bytes that `gfs_sendheader` writes. -/
def gfsSendheader (status : Status) (fileLen : ℕ) : List UInt8 :=
  ascii "GETFILE " ++ gfsStrstatus status ++ ascii " " ++ decimal fileLen ++ ascii "\r\n\r\n"

/-- What the server does with a connection: it calls the handler with a path, which is
`NULL` for `none`, or it writes bytes. -/
inductive Served where
  | handler : Option (List UInt8) → Served
  | header : List UInt8 → Served
  deriving DecidableEq

/-- What `gfserver_serve` does after `process_request`. -/
def served (result : Option (ℤ × Gfcontext)) : Option Served :=
  result.map fun x =>
    if x.1 = -1 then .handler x.2.path else .header (gfsSendheader .fileNotFound 0)

/-- One round of the loop of `gfserver_serve`, for a connection on which `read` returns the
byte strings `ws` and then no bytes. Earlier rounds leave the saved pointer of `strtok`
anywhere. -/
def gfserverServe (next : ℕ) (ws : List (List UInt8)) (e : NoBytes) : Option Served :=
  served (processRequest (gfcontextCreate next) ws e)

/-! ### Complete requests -/

/-- The stream contains a complete request: the scheme, the method, a path that is one word,
and the end marker, with or without a space before it. -/
def Complete (s : List UInt8) : Prop :=
  ∃ p gap rest, p ≠ [] ∧ (∀ c ∈ p, ¬ Blank c) ∧ (gap = [] ∨ gap = [space]) ∧
    s = ascii "GETFILE GET " ++ (p ++ (gap ++ (ascii "\r\n\r\n" ++ rest)))

/-- The connection is served as its stream asks for: the handler is called with a path for a
complete request, and otherwise a `FILE_NOT_FOUND` header is sent. -/
def ServedRight (s : List UInt8) (result : Option Served) : Prop :=
  (Complete s → ∃ p, result = some (.handler (some p))) ∧
  (¬ Complete s → result = some (.header (gfsSendheader .fileNotFound 0)))

/-- Behind the spaces at index `i` stands a byte of a word. -/
def WordAhead (b : Buffer bufSize) (i : ℕ) : Prop :=
  ∃ k, SkipsTo b space i k ∧ b.byte k ≠ 0

/-- A read of a part of a complete request that the parsers can take. Of the scheme, the
first read brings all and the space behind it. For the method, either the read begins behind
the scheme, or not enough bytes have been received yet, or the path begins with the word
`GET` and is taken for the method. Behind the method, either there is a word or the number
of bytes is below the limit of `parse_path`. -/
def ReadOk (ctx : Gfcontext) (w : List UInt8) : Prop :=
  match ctx.sm with
  | .scheme => ctx.rxBytes = 0 ∧ 8 ≤ w.length
  | .method => ctx.rxBytes = 8 ∨ ctx.rxBytes + w.length < 12 ∨ ctx.rxBytes = 11 ∧ ShiftedMethod w
  | .path => WordAhead (ctx.receive w).buffer ctx.next ∨ ctx.totalRxBytes + w.length ≤ 266

/-- The next step of `process_request` on the stream `s` serves it right: the input ends only
behind a complete request with a path found, reads are made inside the buffer, and those of a
complete request are `ReadOk`. -/
def StepOk (s : List UInt8) (x : ℤ × Gfcontext) : List (List UInt8) → Prop
  | [] => Complete s ∧ x.2.path ≠ none
  | w :: _ => x.2.headerPt ≤ bufSize ∧ (Complete s → ReadOk x.2 w)

section

variable {s : List UInt8}

theorem getD_opening (tail : List UInt8) (i : ℕ) :
  (ascii "GETFILE GET " ++ tail).getD (i + 12) 0 = tail.getD i 0
  := rfl

/-- A complete request opens as such. -/
theorem Complete.opens (h : Complete s) :
  Opens s
  := by
  obtain ⟨p, gap, rest, hp, hword, -, rfl⟩ := h
  constructor
  · intro i hi
    apply List.getD_append
    apply hi
  · rw [getD_opening _ 0]
    obtain ⟨c, p, rfl⟩ := List.exists_cons_of_ne_nil hp
    apply hword c (List.mem_cons_self ..)

/-- Behind a path of three bytes stands no terminator, and behind the space after such a path
stands the end marker. -/
theorem Complete.shifted (h : Complete s) (hone : ¬ Blank (s.getD 13 0))
    (htwo : ¬ Blank (s.getD 14 0)) :
  s.getD 15 0 ≠ 0 ∧ (s.getD 15 0 = space → s.getD 16 0 = cr)
  := by
  obtain ⟨p, gap, rest, hp, hword, hgap, rfl⟩ := h
  rw [getD_opening _ 1] at hone
  rw [getD_opening _ 2] at htwo
  rw [getD_opening _ 3, getD_opening _ 4]
  have hblank : Blank ((gap ++ (ascii "\r\n\r\n" ++ rest)).getD 0 0) := by
    rcases hgap with rfl | rfl
    · right; right; left; rfl
    · right; left; rfl
  match p with
  | [] => apply absurd rfl hp
  | [_] => apply absurd hblank hone
  | [_, _] => apply absurd hblank htwo
  | [_, _, _] =>
      rcases hgap with rfl | rfl
      · have hcr : cr ≠ 0 ∧ cr ≠ space := by decide
        exact ⟨hcr.1, fun h => absurd h hcr.2⟩
      · exact ⟨space_ne_zero, fun _ => rfl⟩
  | _ :: _ :: _ :: c :: _ =>
      have hc : ¬ Blank c := by
        apply hword
        simp
      constructor
      · intro hzero
        apply hc
        left
        apply hzero
      · intro hspace
        apply absurd _ hc
        right
        left
        apply hspace

/-! ### Incomplete streams -/

/-- `parse_method` keeps the status, or rejects and stays in its stage. -/
theorem parseMethod_status (ctx : Gfcontext) :
  (parseMethod ctx).2.status = ctx.status ∨
    (parseMethod ctx).1 = -1 ∧ (parseMethod ctx).2.sm = ctx.sm
  := by
  rw [parseMethod]
  split
  · dsimp only
    split
    · right
      exact ⟨rfl, rfl⟩
    · split
      · left
        rfl
      · right
        exact ⟨rfl, rfl⟩
  · left
    rfl

/-- `parse_path` keeps the status, or rejects. -/
theorem parsePath_status (ctx : Gfcontext) :
  (parsePath ctx).2.status = ctx.status ∨ (parsePath ctx).1 = -1
  := by
  have hend : ∀ c : Gfcontext, c.status = ctx.status ∨ c.status = .fileNotFound →
      (if c.status = .fileNotFound then ((-1 : ℤ), c) else (0, c)).2.status = ctx.status ∨
      (if c.status = .fileNotFound then ((-1 : ℤ), c) else (0, c)).1 = -1 := by
    intro c hc
    split
    · right
      rfl
    · rename_i hne
      left
      apply hc.resolve_right hne
  rw [parsePath]
  apply hend
  dsimp only
  split
  · left
    rfl
  · split
    · split
      · left
        rfl
      · right
        rfl
    · split
      · right
        rfl
      · left
        rfl

/-- The parsers keep the status `GF_OK` unless they reject. -/
theorem parse_status {r r' : ℤ} {ctx ctx' : Gfcontext} (hok : ctx.status = .ok)
    (hparse : parse r ctx = (r', ctx')) (hr : r' ≠ -1) :
  ctx'.status = .ok
  := by
  have hpath : ∀ {r : ℤ} {c : Gfcontext}, c.sm = .path → c.status = .ok →
      parse r c = (r', ctx') → ctx'.status = .ok := by
    intro r c hsm hc hparse
    rw [parse_of_path hsm] at hparse
    have hstatus := parsePath_status c
    rw [hparse] at hstatus
    rcases hstatus with hstatus | hreject
    · rw [hstatus, hc]
    · apply absurd hreject hr
  have hmethod : ∀ {r : ℤ} {c : Gfcontext}, c.sm = .method → c.status = .ok →
      parse r c = (r', ctx') → ctx'.status = .ok := by
    intro r c hsm hc hparse
    rw [parse_of_method hsm] at hparse
    rcases parseMethod_status c with hstatus | ⟨hreject, hstay⟩
    · split at hparse
      · rename_i hsm'
        apply hpath (r := 0) hsm' (hstatus.trans hc)
        rw [parse_of_path hsm']
        apply hparse
      · rw [hparse] at hstatus
        rw [hstatus, hc]
    · rw [hstay, hsm, if_neg (by decide)] at hparse
      rw [hparse] at hreject
      apply absurd hreject hr
  cases hsm : ctx.sm with
  | path => apply hpath hsm hok hparse
  | method => apply hmethod hsm hok hparse
  | scheme =>
      rw [parse_of_scheme hsm] at hparse
      have hcase := parseScheme_cases ctx
      generalize parseScheme ctx = x at hcase hparse
      cases hcase with
      | wait short =>
          rw [if_pos hsm] at hparse
          cases hparse
          apply hok
      | reject enough ne sm =>
          rw [if_pos (sm.trans hsm)] at hparse
          cases hparse
          apply absurd rfl hr
      | accept enough eq token call =>
          rw [if_neg (by rw [accepted_sm]; decide)] at hparse
          apply hmethod (accepted_sm _ _ _ _) _ hparse
          apply hok

/-- At the end of the input the handler is called with the path that the context has. -/
theorem served_lastRound {ctx : Gfcontext} {r : ℤ} (h : ctx.Ready) (e : NoBytes) :
  served (lastRound e (r, ctx)) = some (.handler ctx.path)
  := by
  have hpt := h.headerPt_le
  simp only [lastRound]
  rw [if_neg (by omega)]
  cases e with
  | endOfInput => rfl
  | timeout => rfl

/-- A rejected request is answered with a header. -/
theorem served_of_leave {ctx : Gfcontext} {r : ℤ} (h : ctx.Ready) {w : List UInt8}
    {b : Option (ℤ × Gfcontext)} (hround : round (r, ctx) w = .leave b) :
  served b = some (.header (gfsSendheader .fileNotFound 0))
  := by
  obtain ⟨ctx', -, rfl⟩ := (round_leave_iff h).mp hround
  simp [served]

/-- A stream that is not complete is served right exactly when its end is not reached and no
read leaves the buffer. -/
theorem servedRight_of_incomplete (hs : ¬ Complete s) {ws : List (List UInt8)}
    {ctx : Gfcontext} {r : ℤ} (hok : ctx.status = .ok) (e : NoBytes) :
  ServedRight s (served (feed round (lastRound e) (r, ctx) ws)) ↔
    Always round (StepOk s) (r, ctx) ws
  := by
  have hright : ∀ result, ServedRight s result ↔
      result = some (.header (gfsSendheader .fileNotFound 0)) := by
    intro result
    constructor
    · intro h
      apply h.2 hs
    · intro h
      exact ⟨fun hcomplete => absurd hcomplete hs, fun _ => h⟩
  induction ws generalizing r ctx with
  | nil =>
      rw [hright, feed_nil]
      constructor
      · intro h
        by_cases hpt : ctx.headerPt ≤ bufSize
        · rw [served_lastRound ⟨hok, hpt⟩] at h
          cases h
        · simp only [lastRound] at h
          rw [if_pos (by omega)] at h
          cases h
      · rintro ⟨hcomplete, -⟩
        apply absurd hcomplete hs
  | cons w ws ih =>
      by_cases hpt : ctx.headerPt ≤ bufSize
      · have hready : ctx.Ready := ⟨hok, hpt⟩
        have hhead : StepOk s (r, ctx) (w :: ws) := ⟨hpt, fun hcomplete => absurd hcomplete hs⟩
        cases hround : round (r, ctx) w with
        | again x =>
            obtain ⟨hparse, hr⟩ := (round_again_iff hready).mp hround
            rw [feed_again hround, always_again hround]
            have hok' : (ctx.receive w).status = .ok := hok
            apply (ih (parse_status hok' hparse hr)).trans
            constructor
            · intro h
              exact ⟨hhead, h⟩
            · intro h
              apply h.2
        | leave b =>
            rw [feed_leave hround, always_leave hround, hright, served_of_leave hready hround]
            constructor
            · intro _
              apply hhead
            · intro _
              rfl
      · have hround : round (r, ctx) w = .leave none := by
          simp only [round]
          rw [if_pos (by omega)]
        rw [feed_leave hround, always_leave hround, hright]
        constructor
        · intro h
          cases h
        · rintro ⟨hle, -⟩
          apply absurd hle hpt

/-! ### Complete streams -/

/-- The head of the loop in the stage of the path, after `o` bytes. -/
structure PathStage (o : ℕ) (ctx : Gfcontext) : Prop extends ctx.Ready where
  sm : ctx.sm = .path
  next_le : ctx.next ≤ bufSize
  total : ctx.totalRxBytes = o

/-- The heads of the loop, after `o` bytes of a complete request, from which it can still be
served right. -/
inductive Stage (s : List UInt8) : ℕ → Gfcontext → Prop where
  | scheme {ctx : Gfcontext} (filled : Filled s 0 0 ctx) (sm : ctx.sm = .scheme) : Stage s 0 ctx
  | method {ctx : Gfcontext} (filled : Filled s 8 8 ctx) (sm : ctx.sm = .method)
      (next : ctx.next = 8) : Stage s 8 ctx
  | lost {o : ℕ} {ctx : Gfcontext} (lost : LostMethod o ctx) : Stage s o ctx
  | path {o : ℕ} {ctx : Gfcontext} (path : PathStage o ctx) : Stage s o ctx

theorem Stage.ready {o : ℕ} {ctx : Gfcontext} (h : Stage s o ctx) :
  ctx.Ready
  := by
  cases h with
  | scheme filled => apply filled.toReady
  | method filled => apply filled.toReady
  | lost lost => apply lost.toReady
  | path path => apply path.toReady

/-- In the stage of the path, the parser rejects exactly when no word is ahead and the number
of bytes is above its limit. -/
theorem PathStage.parse {o : ℕ} {ctx : Gfcontext} (h : PathStage o ctx) :
  ((WordAhead ctx.buffer ctx.next ∨ o ≤ 266) ∧
      ∃ ctx', parsePath ctx = (0, ctx') ∧ PathStage o ctx') ∨
    (¬ (WordAhead ctx.buffer ctx.next ∨ o ≤ 266) ∧ (parsePath ctx).1 = -1)
  := by
  have hcase := parsePath_cases h.next_le h.ok
  generalize parsePath ctx = x at hcase
  cases hcase with
  | @found t i j call token =>
      obtain ⟨skips, runs, hlt, -, -⟩ := call.range token
      left
      constructor
      · left
        exact ⟨i, skips, (runs.run i le_rfl hlt).2⟩
      · exact ⟨_, rfl, h.toReady.found t _, h.sm, call.next_le, h.total⟩
  | goOn skips zero bound few =>
      left
      rw [h.total] at few
      exact ⟨Or.inr few, _, rfl, ⟨h.ok, h.headerPt_le⟩, h.sm, bound, h.total⟩
  | giveUp skips zero bound many =>
      right
      rw [h.total] at many
      constructor
      · rintro (⟨k, hk, hne⟩ | hfew)
        · apply hne
          rw [← skips.unique hk]
          apply zero
        · omega
      · rfl

/-- A read in the stage of the path. -/
theorem PathStage.receive {o : ℕ} {ctx : Gfcontext} (h : PathStage o ctx) (w : List UInt8) :
  PathStage (o + w.length) (ctx.receive w)
  where
  toReady := h.toReady.receive w
  sm := h.sm
  next_le := h.next_le
  total := by simp only [Gfcontext.receive, h.total]

/-- With the scheme accepted in place, the parsers do not reject. -/
theorem Filled.stage (hs : Opens s) {o : ℕ} {ctx : Gfcontext} (h : Filled s 8 o ctx)
    (hsm : ctx.sm = .method) (hnext : ctx.next = 8) (r : ℤ) :
  ∃ ctx', Server.parse r ctx = (0, ctx') ∧ Stage s o ctx'
  := by
  by_cases hshort : o < 12
  · refine ⟨ctx, h.parse_wait hsm hshort r, ?_⟩
    rcases Nat.eq_or_lt_of_le h.le with rfl | ho
    · apply Stage.method h hsm hnext
    · apply Stage.lost (h.lostMethod hsm hnext ho hshort)
  · obtain ⟨ctx', hparse, hfilled, hsm', hnext'⟩ := h.parse_method hs.head hsm hnext (by omega) r
    rw [hparse]
    have hstage : PathStage o ctx' :=
      ⟨hfilled.toReady, hsm', by rw [hnext']; decide, hfilled.total⟩
    rcases hstage.parse with ⟨-, ctx'', hpath, hstage'⟩ | ⟨hnone, -⟩
    · exact ⟨ctx'', hpath, Stage.path hstage'⟩
    · exfalso
      apply hnone
      rcases Nat.eq_or_lt_of_le hfilled.le with rfl | ho
      · right
        omega
      · left
        have hword := hs.word
        rw [← hfilled.byte 12 le_rfl ho, ← hnext'] at hword
        refine ⟨ctx'.next, SkipsTo.refl ?_, ?_⟩
        · intro hspace
          apply hword
          right
          left
          apply hspace
        · intro hzero
          apply hword
          left
          apply hzero

/-- With the shifted method accepted, the parsers do not reject a complete request. -/
theorem LostMethod.stage (hs : Complete s) {w : List UInt8} {ws : List (List UInt8)}
    {ctx : Gfcontext} (h : LostMethod 11 ctx) (hrest : Rest s 11 (w :: ws))
    (hfits : 8 + w.length ≤ bufSize) (hshift : ShiftedMethod w) (r : ℤ) :
  ∃ ctx', Server.parse r (ctx.receive w) = (0, ctx') ∧ Stage s (11 + w.length) ctx'
  := by
  obtain ⟨t, call, token, hparse⟩ := h.parse_shifted hfits hshift r
  rw [hparse]
  have hstage : PathStage (11 + w.length) ((ctx.receive w).accepted t 12 .path) := by
    refine ⟨⟨h.ok, ?_⟩, rfl, call.next_le, ?_⟩
    · have hle : 12 ≤ bufSize := by decide
      apply hle
    · simp only [Gfcontext.accepted, Gfcontext.receive, h.total]
  rcases hstage.parse with ⟨-, ctx', hpath, hstage'⟩ | ⟨hnone, -⟩
  · exact ⟨ctx', hpath, Stage.path hstage'⟩
  · exfalso
    apply hnone
    by_cases hfew : 11 + w.length ≤ 266
    · right
      apply hfew
    · left
      have hbyte : ∀ j < w.length, (ctx.receive w).buffer.byte (8 + j) = s.getD (11 + j) 0 := by
        intro j hj
        rw [h.byte_receive hrest hfits (by omega) (by omega), Nat.add_sub_cancel_left]
      have hget : ∀ j, 1 ≤ j → j < 4 → ¬ Blank (s.getD (11 + j) 0) := by
        intro j hj hlt
        obtain ⟨v, hv, -⟩ := hshift
        rw [← hrest.getD (by omega), hv, List.getD_append _ _ _ _ hlt]
        have hall : ∀ k < 4, 1 ≤ k → ¬ Blank ((ascii " GET").getD k 0) := by decide
        apply hall j hlt hj
      obtain ⟨hnonzero, hcr⟩ := hs.shifted (hget 2 (by omega) (by omega))
        (hget 3 (by omega) (by omega))
      cases call with
      | none => cases token
      | last _ _ _ zero _ =>
          cases token
          rw [hbyte 4 (by omega)] at zero
          apply absurd zero hnonzero
      | cut _ _ _ delim _ =>
          cases token
          rw [hbyte 4 (by omega)] at delim
          have hword : ((ctx.receive w).buffer.terminate 12).byte 13 = cr := by
            rw [Buffer.terminate_byte_of_ne _ (by omega), hbyte 5 (by omega)]
            apply hcr delim
          refine ⟨13, SkipsTo.refl ?_, ?_⟩
          · simp only [Gfcontext.accepted]
            rw [hword]
            decide
          · simp only [Gfcontext.accepted]
            rw [hword]
            decide

/-- One round on a complete request. A read that is `ReadOk` leads to the next stage; any
other read is rejected at once or leaves a part of the scheme behind. -/
theorem Stage.round (hs : Complete s) {o : ℕ} {w : List UInt8} {ws : List (List UInt8)}
    {ctx : Gfcontext} (h : Stage s o ctx) (hrest : Rest s o (w :: ws)) (hw : w ≠ [])
    (hfits : ctx.headerPt + w.length ≤ bufSize) (r : ℤ) :
  (ReadOk ctx w ∧ ∃ ctx', Server.round (r, ctx) w = .again (0, ctx') ∧
      Stage s (o + w.length) ctx') ∨
    (¬ ReadOk ctx w ∧ ((∃ b, Server.round (r, ctx) w = .leave b) ∨
      ∃ ctx', Server.round (r, ctx) w = .again (0, ctx') ∧ LostScheme (o + w.length) ctx'))
  := by
  have hpos := List.length_pos_iff.mpr hw
  have hready := h.ready
  have hagain : (∃ ctx', Server.parse r (ctx.receive w) = (0, ctx') ∧
      Stage s (o + w.length) ctx') →
      ∃ ctx', Server.round (r, ctx) w = .again (0, ctx') ∧ Stage s (o + w.length) ctx' := by
    rintro ⟨ctx', hparse, hstage⟩
    exact ⟨ctx', (round_again_iff hready).mpr ⟨hparse, by decide⟩, hstage⟩
  have hleave : (Server.parse r (ctx.receive w)).1 = -1 →
      ∃ b, Server.round (r, ctx) w = .leave b := by
    intro hreject
    exact ⟨_, (round_leave_iff hready).mpr ⟨_, Prod.ext hreject rfl, rfl⟩⟩
  cases h with
  | scheme filled sm =>
      rw [filled.headerPt] at hfits
      have hfilled := filled.receive hrest hfits
      rw [Nat.zero_add] at hfilled
      simp only [ReadOk, sm]
      by_cases hlong : 8 ≤ w.length
      · left
        refine ⟨⟨filled.rxBytes, hlong⟩, hagain ?_⟩
        obtain ⟨ctx', hparse, hfilled', sm', next'⟩ := hfilled.parse_scheme hs.opens.head sm hlong r
        rw [hparse, Nat.zero_add]
        apply hfilled'.stage hs.opens sm' next'
      · right
        constructor
        · rintro ⟨-, hle⟩
          apply hlong hle
        · by_cases hseven : w.length = 7
          · left
            rw [hseven] at hfilled
            apply hleave (hfilled.parse_seven hs.opens.head sm r)
          · right
            have hshort : w.length < 7 := by omega
            refine ⟨_, (round_again_iff hready).mpr
              ⟨hfilled.parse_short sm hshort r, by decide⟩, ?_⟩
            rw [Nat.zero_add]
            exact ⟨hfilled.toReady, sm, hfilled.headerPt, hfilled.rxBytes, hfilled.path, hpos,
              hshort⟩
  | method filled sm next =>
      rw [filled.headerPt] at hfits
      left
      simp only [ReadOk, sm]
      refine ⟨Or.inl filled.rxBytes, hagain ?_⟩
      apply (filled.receive hrest hfits).stage hs.opens sm next
  | lost lost =>
      rw [lost.headerPt] at hfits
      have hlow := lost.some_read
      simp only [ReadOk, lost.sm, lost.rxBytes]
      by_cases hshort : o + w.length < 12
      · left
        refine ⟨Or.inr (Or.inl hshort), hagain ?_⟩
        obtain ⟨hparse, hlost⟩ := lost.parse_wait hfits hshort r
        exact ⟨_, hparse, Stage.lost hlost⟩
      · by_cases hshift : o = 11 ∧ ShiftedMethod w
        · left
          obtain ⟨rfl, hshift⟩ := hshift
          refine ⟨Or.inr (Or.inr ⟨rfl, hshift⟩), hagain ?_⟩
          apply lost.stage hs hrest hfits hshift
        · right
          constructor
          · rintro (heq | hlt | hshift')
            · omega
            · omega
            · apply hshift hshift'
          · left
            apply hleave
            apply lost.parse_reject hs.opens hrest hw hfits (by omega) hshift
  | path path =>
      have hstage := path.receive w
      simp only [ReadOk, path.sm, path.total]
      rcases hstage.parse with ⟨hok, ctx', hparse, hstage'⟩ | ⟨hnone, hreject⟩
      · left
        refine ⟨hok, hagain ⟨ctx', ?_, Stage.path hstage'⟩⟩
        rw [parse_of_path hstage.sm]
        apply hparse
      · right
        refine ⟨hnone, Or.inl (hleave ?_)⟩
        rw [parse_of_path hstage.sm]
        apply hreject

/-- Once a read has ended inside the scheme, no path is found. -/
theorem LostScheme.served_ne (hs : Opens s) {o : ℕ} {ws : List (List UInt8)} {ctx : Gfcontext}
    {r : ℤ} (e : NoBytes) (h : LostScheme o ctx) (hrest : Rest s o ws)
    (hreads : Always Server.round Fits (r, ctx) ws) (p : List UInt8) :
  served (feed Server.round (lastRound e) (r, ctx) ws) ≠ some (.handler (some p))
  := by
  apply feed_rule
    (I := fun s' ws => Always Server.round Fits s' ws ∧ ∃ o, LostScheme o s'.2 ∧ Rest s o ws)
    (Q := fun b => served b ≠ some (.handler (some p)))
  · rintro ⟨r, ctx⟩ ⟨-, o, h, -⟩
    rw [served_lastRound h.toReady, h.path]
    simp
  · rintro ⟨r, ctx⟩ w ws ⟨r', ctx'⟩ ⟨hreads, o, h, hrest⟩ hround
    obtain ⟨hw, hfits⟩ := hreads.head.le h.toReady
    obtain ⟨hparse, hr⟩ := (round_again_iff h.toReady).mp hround
    constructor
    · apply hreads.next hround
    · exact ⟨_, h.step hs hrest hw (by omega) hparse hr, hrest.tail⟩
  · rintro ⟨r, ctx⟩ w ws b ⟨-, o, h, -⟩ hround
    rw [served_of_leave h.toReady hround]
    simp
  · exact ⟨hreads, o, h, hrest⟩

/-- A complete request is served right exactly when its reads are `ReadOk` and a path has
been found at its end. -/
theorem Stage.right_iff (hs : Complete s) {o : ℕ} {ws : List (List UInt8)}
    {ctx : Gfcontext} {r : ℤ} (e : NoBytes) (h : Stage s o ctx) (hrest : Rest s o ws)
    (hreads : Always Server.round Fits (r, ctx) ws) :
  ServedRight s (served (feed Server.round (lastRound e) (r, ctx) ws)) ↔
    Always Server.round (StepOk s) (r, ctx) ws
  := by
  have hright : ∀ result, ServedRight s result ↔ ∃ p, result = some (.handler (some p)) := by
    intro result
    constructor
    · intro h
      apply h.1 hs
    · intro h
      exact ⟨fun _ => h, fun hnot => absurd hs hnot⟩
  induction ws generalizing r o ctx with
  | nil =>
      rw [hright, feed_nil, served_lastRound h.ready]
      constructor
      · rintro ⟨p, hp⟩
        refine ⟨hs, ?_⟩
        simp only [Option.some.injEq, Served.handler.injEq] at hp
        rw [hp]
        simp
      · rintro ⟨-, hne⟩
        obtain ⟨p, hp⟩ := Option.ne_none_iff_exists'.mp hne
        use p
        rw [hp]
  | cons w ws ih =>
      obtain ⟨hw, hfits⟩ := hreads.head.le h.ready
      rcases h.round hs hrest hw hfits r with ⟨hok, ctx', hround, hstage⟩ | ⟨hnot, hbad⟩
      · rw [feed_again hround, always_again hround]
        apply (ih hstage hrest.tail (hreads.next hround)).trans
        constructor
        · intro hnext
          exact ⟨⟨h.ready.headerPt_le, fun _ => hok⟩, hnext⟩
        · intro hnext
          apply hnext.2
      · constructor
        · rw [hright]
          rintro ⟨p, hp⟩
          exfalso
          rcases hbad with ⟨b, hround⟩ | ⟨ctx', hround, hlost⟩
          · rw [feed_leave hround, served_of_leave h.ready hround] at hp
            cases hp
          · rw [feed_again hround] at hp
            apply hlost.served_ne hs.opens e hrest.tail (hreads.next hround) p hp
        · intro halways
          obtain ⟨-, hok⟩ := halways.head
          apply absurd (hok hs) hnot

end

/-! ### From a fresh context -/

/-- A connection is served right exactly when the steps of `process_request` on it are
`StepOk`. -/
theorem servedRight_iff (next : ℕ) {ws : List (List UInt8)} (e : NoBytes)
    (hreads : Reads (gfcontextCreate next) ws) :
  ServedRight ws.flatten (gfserverServe next ws e) ↔
    Always round (StepOk ws.flatten) (0, gfcontextCreate next) ws
  := by
  by_cases hs : Complete ws.flatten
  · have hrest : Rest ws.flatten 0 ws := rfl
    apply (Stage.scheme (filled_create next) rfl).right_iff hs e hrest hreads
  · apply servedRight_of_incomplete hs rfl

theorem servedRight_iff_request :
  ServedRight [ascii "GETFILE GET /a\r\n\r\n"].flatten
      (gfserverServe 0 [ascii "GETFILE GET /a\r\n\r\n"] .timeout) ↔
    Always round (StepOk [ascii "GETFILE GET /a\r\n\r\n"].flatten) (0, gfcontextCreate 0)
      [ascii "GETFILE GET /a\r\n\r\n"]
  := by
  apply servedRight_iff
  constructor
  · rintro w ⟨⟩
    decide
  · rintro s' _ w ⟨⟩

/-- On an empty stream the handler is called with the path `NULL`. -/
theorem not_servedRight_empty :
  Reads (gfcontextCreate 0) [] ∧
    gfserverServe 0 [] .endOfInput = some (.handler none) ∧
    ¬ ServedRight [] (gfserverServe 0 [] .endOfInput)
  := by
  refine ⟨?_, rfl, ?_⟩
  · rintro w ⟨⟩
  · rintro ⟨-, hheader⟩
    have hincomplete : ¬ Complete [] := by
      rintro ⟨p, gap, rest, -, -, -, heq⟩
      have hlength := congrArg List.length heq
      rw [List.length_append] at hlength
      have hopening : (ascii "GETFILE GET ").length = 12 := rfl
      rw [List.length_nil] at hlength
      omega
    have hanswer := hheader hincomplete
    cases hanswer

end GetFile.Server
