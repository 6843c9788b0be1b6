import IdmtRelay.Firmware.Proof.Parts
import IdmtRelay.Firmware.Server
import IdmtRelay.Serial.Proof.Receive
import IdmtRelay.Trip.Proof.Curve
import IdmtRelay.Trip.Proof.Report

/-!
# The replies answer the requests

A packet the main loop has got is handled in one of a few phases (`Serving`), in each of which the
flash holds the block of the packets handled before, up to the one in progress. Every step goes from
phase to phase (`served_step`), so along every interleaving of receptions, ticks and transmissions
the packets handed to `PacketPut` are the server's replies to the packets `PacketGet` returned, one
at most of them still being handled (`replies_serve`). A tick meanwhile reads the latest setting,
or 0xFF while another one is being stored (`setting_in_force`).
-/

namespace Firmware

open Flash (Block FTFE FLASH_DATA_START)
open Serial (Msg Link)
open Trip (CMD_DOR CMD_DOR_CURRENT Call Curve Report Statics)
open Trip.Observed (ReadFrom)

/-! ## The statics -/

/-- The statics over a data block `m`, with both variables allocated. -/
structure Keeps (m : Block) (s : Statics) : Prop extends s.Stored where
  nBTrip : s.nBTrip = FLASH_DATA_START + 2#32
  block : s.flash.block = m

section
variable {launch : FTFE → FTFE} {m : Block} {s : Statics}

theorem Keeps.byte_eq (h : Keeps m s) : s.byte = m 0 := by
  rw [← h.block]
  exact Statics.byte_eq h.toStored

theorem Keeps.getNbTrip_eq (h : Keeps m s) : s.getNbTrip = uint16union (m 2) (m 3) := by
  unfold Statics.getNbTrip
  rw [h.nBTrip, Flash.State.FH_address s.flash 2, Flash.State.FB_address s.flash 2 (n := 2) rfl,
    Flash.State.FB_address s.flash 3 (n := 2 + 1) rfl, h.block]

theorem store_eq (m : Block) (slope : uint8_t) :
    store m slope = Flash.permuted (Lib.Store.overwrite Flash.Op.byte (.write8 0 slope) m) := by
  unfold store
  congr 1
  funext j
  simp only [Lib.Store.overwrite, Flash.Op.byte, Fin.ext_iff, Fin.val_zero]
  split <;> rfl

theorem Keeps.set (hl : Flash.Ideal launch) (h : Keeps m s) (slope : uint8_t) :
    Keeps (store m slope) (s.set launch slope) := by
  obtain ⟨hblock, -⟩ := Flash.block_exec hl (.write8 0 slope) s.flash h.ready
  have hset : s.set launch slope = _ := Statics.set_eq h.success slope
  refine ⟨(Statics.set_spec hl h.toStored slope).1, ?_, ?_⟩
  · rw [hset]
    exact h.nBTrip
  · rw [hset, h.setting, store_eq, ← h.block]
    exact hblock

theorem keeps_powerUp {f : Flash.State} (hf : ¬ f.ftfe.Failed)
    (h : (Statics.powerUp f).construct = some s) : Keeps f.block s := by
  obtain ⟨s', h', hsuccess, hsetting, hflash⟩ := Statics.construct_powerUp f
  have hs : s' = s := Option.some.inj (h'.symm.trans h)
  rw [hs] at hsuccess hsetting hflash
  refine ⟨⟨hsuccess, hsetting, by rwa [hflash]⟩, ?_, by rw [hflash]⟩
  cases h
  rfl

end

/-! ## The handlers -/

/-- What `HandleCommandPacket` does with a packet before its handler first waits for something that
others see. -/
inductive Handles (s : System) (q : Msg) : System → Prop
  | silent (h : ask q = none) : Handles s q { s with task := .poll }
  | get (h : ask q = some .get) :
      Handles s q { s with task := .reply ⟨CMD_DOR, 0, 1, s.statics.byte⟩ }
  | set {slope : uint8_t} (h : ask q = some (.set slope)) : Handles s q { s with
      task := .set slope (.start8 s.statics.setting slope s.statics.flash) }
  | frequency (h : ask q = some .frequency) :
      Handles s q { s with task := .reply (handleFrequency s.device.analog) }
  | current (h : ask q = some .current) : Handles s q { s with task := .current .idle }
  | nbTimeTripped (h : ask q = some .nbTimeTripped) :
      Handles s q { s with task := .reply (handleNbTimeTripped s.statics) }

theorem construct_of_success {s : Statics} (h : s.success = true) : s.construct = some s := by
  unfold Statics.construct
  rw [h]
  rfl

theorem handles_of {s s' : System} {setting : uint8_t} {q : Msg} (hs : s.statics.success = true)
    (h : s.handleCommandPacket setting q = some s') : Handles s q s' := by
  unfold System.handleCommandPacket at h
  by_cases hc : q.command = CMD_DOR
  · rw [if_pos hc, construct_of_success hs] at h
    by_cases hi : q.parameter1 = IDMT
    · rw [if_pos hi, Option.bind_eq_bind, Option.bind_some, if_pos hs] at h
      by_cases hg : q.parameter2 = 0x01#8
      · rw [if_pos hg, Statics.getSetting, if_pos hs] at h
        cases h
        exact .get (by rw [ask, if_pos hc, if_pos hi, if_pos hg])
      · rw [if_neg hg] at h
        cases h
        exact .set (by rw [ask, if_pos hc, if_pos hi, if_neg hg])
    · rw [if_neg hi] at h
      by_cases hf : q.parameter1 = FREQUENCY
      · rw [if_pos hf] at h
        cases h
        exact .frequency (by rw [ask, if_pos hc, if_neg hi, if_pos hf])
      · rw [if_neg hf] at h
        by_cases hcur : q.parameter1 = CURRENT
        · rw [if_pos hcur] at h
          cases h
          exact .current (by rw [ask, if_pos hc, if_neg hi, if_neg hf, if_pos hcur])
        · rw [if_neg hcur] at h
          by_cases hn : q.parameter1 = NB_TIME_TRIPPED
          · rw [if_pos hn] at h
            cases h
            refine .nbTimeTripped ?_
            rw [ask, if_pos hc, if_neg hi, if_neg hf, if_neg hcur, if_pos hn]
          · rw [if_neg hn] at h
            cases h
            refine .silent ?_
            rw [ask, if_pos hc, if_neg hi, if_neg hf, if_neg hcur, if_neg hn]
  · rw [if_neg hc] at h
    cases h
    exact .silent (if_neg hc)

/-! ## The reads of `HandleCurrent` -/

section
variable {e : Report.Event} {c : Call} {r : Trip.Relay} {r' : Report} {o : List Trip.Out}
  {x : uint16_t}

theorem read_first (hx : ReadFrom x c) (h : Report.step e ⟨r, c⟩ = .ok ((none, o), r')) :
    ReadFrom x r'.call ∨ ReadFrom r.current r'.call := by
  cases e with
  | readLo =>
    cases c with
    | idle =>
      cases h
      exact .inr rfl
    | lo Lo => cases h
    | hi Hi => cases h
  | readHi =>
    cases c with
    | idle =>
      cases h
      exact .inr rfl
    | lo Lo => cases h
    | hi Hi => cases h
  | tick i =>
    simp only [Report.step] at h
    split at h
    · cases h
    · cases h
      exact .inl hx

theorem read_last {m : Msg} (hx : ReadFrom x c)
    (h : Report.step e ⟨r, c⟩ = .ok ((some m, o), r')) :
    m = ⟨CMD_DOR_CURRENT, 2, x.lo8, r.current.hi8⟩ ∨
      m = ⟨CMD_DOR_CURRENT, 2, r.current.lo8, x.hi8⟩ := by
  cases e with
  | readLo =>
    cases c with
    | idle => cases h
    | lo Lo => cases h
    | hi Hi =>
      cases h
      obtain rfl : Hi = x.hi8 := hx
      exact .inr rfl
  | readHi =>
    cases c with
    | idle => cases h
    | lo Lo =>
      cases h
      obtain rfl : Lo = x.lo8 := hx
      exact .inl rfl
    | hi Hi => cases h
  | tick i =>
    simp only [Report.step] at h
    split at h <;> cases h

end

/-! ## The phases of a request -/

/-- Where the main loop is with the packets `pending` after it has handled `qs`. -/
inductive Serving (launch : FTFE → FTFE) (m : Block) (F C : uint16_t → Prop) (qs : List Msg) :
    List Msg → Task → Statics → Prop
  | poll {s : Statics} (hs : Keeps (blockAfter m qs) s) : Serving launch m F C qs [] .poll s
  | handle {q : Msg} {s : Statics} (hs : Keeps (blockAfter m qs) s) :
      Serving launch m F C qs [q] (.handle q) s
  | current {q : Msg} {s : Statics} {c : Call} {x : uint16_t} (hs : Keeps (blockAfter m qs) s)
      (ha : ask q = some .current) (hx : C x) (hc : ReadFrom x c) :
      Serving launch m F C qs [q] (.current c) s
  | set {q : Msg} {s₁ s : Statics} {slope : uint8_t} {w : Flash.Write}
      (hs : Keeps (blockAfter m qs) s₁) (ha : ask q = some (.set slope))
      (hp : ∀ r, Curve.Phase launch s₁ slope ⟨s, some w, r⟩) :
      Serving launch m F C qs [q] (.set slope w) s
  | reply {q r : Msg} {s : Statics} {a : Ask} (hs : Keeps (blockAfter m (qs ++ [q])) s)
      (ha : ask q = some a) (hr : Answer (blockAfter m qs) F C a r) :
      Serving launch m F C qs [q] (.reply r) s

/-- What a run has served, with the packets still being handled. -/
structure Served (launch : FTFE → FTFE) (m : Block) (tr : Steps) (s : System)
    (qs pending : List Msg) : Prop where
  requests : requests tr = qs ++ pending
  serves : Serves m (During System.frequency tr) (During System.current tr) qs (replies tr)
  serving : Serving launch m (During System.frequency tr (qs.length + 1))
    (During System.current tr (qs.length + 1)) qs pending s.task s.statics

variable {launch : FTFE → FTFE} {m : Block}

theorem Serving.mono {F C F' C' : uint16_t → Prop} {qs pending : List Msg} {t : Task} {s : Statics}
    (hF : ∀ x, F x → F' x) (hC : ∀ x, C x → C' x) (h : Serving launch m F C qs pending t s) :
    Serving launch m F' C' qs pending t s := by
  cases h with
  | poll hs => exact .poll hs
  | handle hs => exact .handle hs
  | current hs ha hx hc => exact .current hs ha (hC _ hx) hc
  | set hs ha hp => exact .set hs ha hp
  | reply hs ha hr => exact .reply hs ha (hr.mono hF hC)

theorem phase_relay {s₀ s : Statics} {slope : uint8_t} {call : Option Flash.Write}
    {r : Trip.Relay} (h : Curve.Phase launch s₀ slope ⟨s, call, r⟩) (r' : Trip.Relay) :
    Curve.Phase launch s₀ slope ⟨s, call, r'⟩ := by
  cases h with
  | called => exact .called r'
  | erased => exact .erased r'
  | done => exact .done r'

/-- The replies of a longer run. -/
theorem serves_append {tr : Steps} {qs rs : List Msg} (p : (Event × Act) × System)
    (h : Serves m (During System.frequency tr) (During System.current tr) qs rs) :
    Serves m (During System.frequency (tr ++ [p])) (During System.current (tr ++ [p])) qs rs :=
  h.mono (fun _ _ => During.mono (List.prefix_append tr [p]))
    fun _ _ => During.mono (List.prefix_append tr [p])

/-- A step that neither gets nor puts a packet and leaves the main loop where it is. -/
theorem Served.frame {tr : Steps} {s : System} {qs pending : List Msg}
    (h : Served launch m tr s qs pending) {p : (Event × Act) × System}
    (hq : Firmware.requests (tr ++ [p]) = Firmware.requests tr)
    (hr : replies (tr ++ [p]) = replies tr) (ht : p.2.task = s.task)
    (hs : p.2.statics = s.statics) : Served launch m (tr ++ [p]) p.2 qs pending := by
  refine ⟨hq.trans h.requests, ?_, ?_⟩
  · rw [hr]
    exact serves_append p h.serves
  · rw [ht, hs]
    exact h.serving.mono (fun _ => During.mono (List.prefix_append tr [p]))
      fun _ => During.mono (List.prefix_append tr [p])

/-! ## One step -/

theorem got_isr (u : Serial.UART) (s1Rx s1Tx d : uint8_t) :
    Link.got (u.isr s1Rx s1Tx d).1 = [] := by
  have hrx : Link.got (u.isrRx s1Rx d).1 = [] := by
    rcases u.isrRx_cases s1Rx d with he | he <;> rw [he] <;> rfl
  rw [Serial.UART.isr_eq, Link.got_append, hrx]
  rcases (u.isrRx s1Rx d).2.isrTx_cases s1Tx with he | ⟨b, bs, -, -, -, he⟩ | ⟨-, -, he⟩
  · rw [he]
    rfl
  · rw [he]
    rfl
  · rw [he]
    rfl

/-- Only a poll gets a packet, and one at most. -/
theorem link_got {s s' : Link} {e : Serial.Event} {o : List Serial.Out}
    (h : Link.Step s (e, o) s') :
    Link.got o = [] ∨ e = .packetGet ∧ ∃ q, Link.got o = [q] := by
  have hb : Link.Branch s e o s' := Link.step_branch h
  cases hb with
  | isr s1Rx s1Tx d => exact .inl (got_isr s.uart s1Rx s1Tx d)
  | packetGet hc =>
    split
    · exact .inr ⟨rfl, _, rfl⟩
    · exact .inl rfl
  | packetPut m hc => exact .inl rfl
  | resume hc hs => exact .inl rfl
  | ret hc hs => exact .inl rfl

variable {tr : Steps} {s s' : System} {e : Event} {a : Act} {qs pending : List Msg}

/-- A step of the main loop alone within the handling of a packet. -/
theorem Served.main (h : Served launch m tr s qs pending)
    (hs : Serving launch m (During System.frequency (tr ++ [((e, .main), s')]) (qs.length + 1))
      (During System.current (tr ++ [((e, .main), s')]) (qs.length + 1)) qs pending s'.task
      s'.statics) : Served launch m (tr ++ [((e, .main), s')]) s' qs pending := by
  refine ⟨?_, ?_, hs⟩
  · rw [requests_snoc, List.append_nil]
    exact h.requests
  · rw [replies_snoc, List.append_nil]
    exact serves_append _ h.serves

/-- What is held after such a step is held while the packet is handled. -/
theorem during_main (get : System → uint16_t) (e : Event) (s' : System) {q : Msg}
    (h : requests tr = qs ++ [q]) :
    During get (tr ++ [((e, .main), s')]) (qs.length + 1) (get s') := by
  have hlast := during_last get tr ((e, .main), s')
  rwa [requests_snoc, List.append_nil, h, List.length_append] at hlast

theorem served_handle {q : Msg} (h : Served launch m tr s qs [q])
    (hs : Keeps (blockAfter m qs) s.statics) (hh : Handles s q s') :
    ∃ qs pending, Served launch m (tr ++ [((e, .main), s')]) s' qs pending := by
  have hF := during_main System.frequency e s' h.requests
  have hC := during_main System.current e s' h.requests
  cases hh with
  | silent ha =>
    refine ⟨qs ++ [q], [], ?_, ?_, ?_⟩
    · rw [requests_snoc, List.append_nil, List.append_nil]
      exact h.requests
    · rw [replies_snoc, List.append_nil]
      exact .silent (serves_append _ h.serves) ha
    · refine .poll ?_
      rw [blockAfter_snoc, sets, ha]
      exact hs
  | get ha =>
    refine ⟨qs, [q], h.main (.reply ?_ ha ?_)⟩
    · rw [blockAfter_snoc, sets, ha]
      exact hs
    · rw [hs.byte_eq]
      exact .get
  | set ha =>
    refine ⟨qs, [q], h.main (.set hs ha fun r => ?_)⟩
    exact .called r
  | frequency ha =>
    refine ⟨qs, [q], h.main (.reply ?_ ha (.frequency hF))⟩
    rw [blockAfter_snoc, sets, ha]
    exact hs
  | current ha => exact ⟨qs, [q], h.main (.current hs ha hC trivial)⟩
  | nbTimeTripped ha =>
    refine ⟨qs, [q], h.main (.reply ?_ ha ?_)⟩
    · rw [blockAfter_snoc, sets, ha]
      exact hs
    · rw [handleNbTimeTripped, hs.getNbTrip_eq, BitVec.lo8_uint16union, BitVec.hi8_uint16union]
      exact .nbTimeTripped

theorem served_set (hl : Flash.Ideal launch) {slope : uint8_t} {w : Flash.Write}
    {o : Option uint8_t × List Trip.Out} {c : Curve}
    (h : Served launch m tr s qs pending) (ht : s.task = .set slope w)
    (hst : Curve.Step launch ⟨s.statics, some w, s.device.relay⟩ (.command, o) c) :
    Served launch m
      (tr ++ [((e, .main), { s with statics := c.statics, task := .afterSet slope c.call })])
      { s with statics := c.statics, task := .afterSet slope c.call } qs pending := by
  have hserving := h.serving
  rw [ht] at hserving
  cases hserving with
  | @set q s₁ _ _ _ hs ha hp =>
    have hp' := Curve.phase_step hs.success (hp s.device.relay) hst
    obtain ⟨statics, call, relay⟩ := c
    refine h.main ?_
    cases call with
    | some w' => exact .set hs ha (phase_relay hp')
    | none =>
      cases hp' with
      | done =>
        refine .reply ?_ ha (.set slope)
        rw [blockAfter_snoc, sets, ha]
        exact hs.set hl slope

/-- **Every step goes from phase to phase.** -/
theorem served_step (hl : Flash.Ideal launch)
    (h : ∃ qs pending, Served launch m tr s qs pending)
    (hst : System.Step launch s (e, a) s') :
    ∃ qs pending, Served launch m (tr ++ [((e, a), s')]) s' qs pending := by
  obtain ⟨qs, pending, h⟩ := h
  have hq := requests_snoc tr e a s'
  have hr := replies_snoc tr e a s'
  have hserving := h.serving
  cases System.step_branch hst with
  | uart hlink =>
    obtain hgot | ⟨hpoll, -⟩ := link_got hlink
    · exact ⟨qs, pending, h.frame (by simpa [hgot] using hq) (by simpa using hr) rfl rfl⟩
    · cases hpoll
  | tick hi htick =>
    exact ⟨qs, pending, h.frame (by simpa using hq) (by simpa using hr) rfl rfl⟩
  | resume hc hlink =>
    obtain hgot | ⟨hpoll, -⟩ := link_got hlink
    · exact ⟨qs, pending, h.frame (by simpa [hgot] using hq) (by simpa using hr) rfl rfl⟩
    · cases hpoll
  | poll hc ht hlink =>
    rw [ht] at hserving
    cases hserving with
    | poll hs =>
      rw [List.append_nil] at hr
      obtain hgot | ⟨-, q, hgot⟩ := link_got hlink
      · refine ⟨qs, [], h.frame (by simpa [hgot] using hq) hr ?_ rfl⟩
        show System.polled _ = s.task
        rw [ht, System.polled, hgot]
      · refine ⟨qs, [q], ?_, ?_, ?_⟩
        · rw [hq, h.requests]
          simp [hgot]
        · rw [hr]
          exact serves_append _ h.serves
        · show Serving _ _ _ _ qs [q] (System.polled _) s.statics
          rw [System.polled, hgot]
          exact .handle hs
  | handle hc ht hh =>
    rw [ht] at hserving
    cases hserving with
    | handle hs => exact served_handle h hs (handles_of hs.success hh)
  | @read c ev o r hc ht he hread =>
    rw [ht] at hserving
    cases hserving with
    | @current q _ _ x hs ha hx hrd =>
      have hC := during_main System.current e { s with task := .current r.call } h.requests
      refine ⟨qs, [q], h.main ?_⟩
      rcases read_first hrd hread with hrd' | hrd'
      · exact .current hs ha (hx.mono (List.prefix_append _ _)) hrd'
      · exact .current hs ha hC hrd'
  | @readLast c ev r o _ hc ht he hread =>
    rw [ht] at hserving
    cases hserving with
    | @current q _ _ x hs ha hx hrd =>
      have hC := during_main System.current e { s with task := .reply r } h.requests
      have hx' := hx.mono (List.prefix_append tr [((e, .main), { s with task := .reply r })])
      refine ⟨qs, [q], h.main ?_⟩
      have hs' : Keeps (blockAfter m (qs ++ [q])) s.statics := by
        rw [blockAfter_snoc, sets, ha]
        exact hs
      rcases read_last hrd hread with rfl | rfl
      · exact .reply hs' ha (.current hx' hC)
      · exact .reply hs' ha (.current hC hx')
  | set hc ht hset => exact ⟨qs, pending, served_set hl h ht hset⟩
  | @reply r o l hc ht hlink =>
    rw [ht] at hserving
    cases hserving with
    | @reply q _ _ _ hs ha hans =>
      obtain hgot | ⟨hpoll, -⟩ := link_got hlink
      · refine ⟨qs ++ [q], [], ?_, ?_, .poll hs⟩
        · rw [hq, h.requests]
          simp [hgot]
        · rw [hr]
          refine .reply (serves_append _ h.serves) ha (hans.mono ?_ ?_)
          · exact fun _ => During.mono (List.prefix_append _ _)
          · exact fun _ => During.mono (List.prefix_append _ _)
      · cases hpoll

/-! ## Runs -/

theorem served_powerUp {f : Flash.State} (hf : ¬ f.ftfe.Failed) {s₀ : System}
    (h : PowerUp f s₀) : Served launch f.block [] s₀ [] [] := by
  refine ⟨rfl, .nil, ?_⟩
  rw [h.task]
  exact .poll (keeps_powerUp hf h.statics)

theorem served_run (hl : Flash.Ideal launch) {f : Flash.State} (hf : ¬ f.ftfe.Failed)
    {s₀ : System} (h0 : PowerUp f s₀) (h : Lib.Trace (System.Step launch) s₀ tr s) :
    ∃ qs pending, Served launch f.block tr s qs pending := by
  refine h.history (fun tr s => ∃ qs pending, Served launch f.block tr s qs pending)
    ⟨[], [], served_powerUp hf h0⟩ ?_
  intro tr s ⟨e, a⟩ s' hs hst
  exact served_step hl hs hst

theorem Serving.pending_le {F C : uint16_t → Prop} {t : Task} {s : Statics}
    (h : Serving launch m F C qs pending t s) :
    pending.length ≤ 1 ∧ (t = .poll → pending = []) := by
  cases h with
  | poll hs => exact ⟨Nat.zero_le _, fun _ => rfl⟩
  | handle hs => exact ⟨Nat.le_refl _, fun ht => by cases ht⟩
  | current hs ha hx hc => exact ⟨Nat.le_refl _, fun ht => by cases ht⟩
  | set hs ha hp => exact ⟨Nat.le_refl _, fun ht => by cases ht⟩
  | reply hs ha hr => exact ⟨Nat.le_refl _, fun ht => by cases ht⟩

/-- **The replies answer the requests, whatever the schedule.** In every run of the firmware from
power-up the packets passed to `PacketPut` are the server's replies to the packets that `PacketGet`
returned, in order, one of them at most still being handled and none while the main loop polls. -/
theorem replies_serve (launch : FTFE → FTFE) (hl : Flash.Ideal launch) (f : Flash.State)
    (hf : ¬ f.ftfe.Failed) (s₀ s : System) (h0 : PowerUp f s₀) (tr : Steps)
    (h : Lib.Trace (System.Step launch) s₀ tr s) :
    ∃ handled pending, requests tr = handled ++ pending ∧ pending.length ≤ 1 ∧
      (s.task = .poll → pending = []) ∧
      Serves f.block (During System.frequency tr) (During System.current tr) handled
        (replies tr) := by
  obtain ⟨qs, pending, hs⟩ := served_run hl hf h0 h
  obtain ⟨hle, hpoll⟩ := hs.serving.pending_le
  exact ⟨qs, pending, hs.requests, hle, hpoll, hs.serves⟩

/-- The firmware at power-up over a block with every byte `b`. -/
def started (b : uint8_t) : System where
  link := ⟨.init, ⟨0, 0, 0, 0, 0, 1⟩, none⟩
  task := .poll
  statics := Curve.constructed b
  device := .init

theorem started_powerUp (b : uint8_t) : PowerUp (Flash.idle fun _ => b) (started b) :=
  { aligned := ⟨rfl, (by decide : Serial.UART.init.RIE), rfl⟩
    call := rfl
    txFIFO := rfl
    task := rfl
    statics := rfl
    device := rfl }

/-- A packet received byte by byte with a poll after each, and the steps of its handler. -/
def requested (m : Msg) (steps : List Event) : List Event :=
  (m.bytes.flatMap fun d => [.uart 0x20 0 d, .main 0]) ++ steps

/-- The curve is set to 1 and asked for. -/
theorem replies_serve_two : ∃ tr s, Lib.Trace (System.Step Flash.k70) (started 2#8) tr s ∧
    replies tr = [⟨0x70, 0, 1, 1⟩, ⟨0x70, 0, 1, 1⟩] ∧
    ∃ handled pending, requests tr = handled ++ pending ∧ pending.length ≤ 1 ∧
      (s.task = .poll → pending = []) ∧
      Serves (Flash.idle fun _ => 2#8).block (During System.frequency tr)
        (During System.current tr) handled (replies tr) := by
  obtain ⟨tr, s, h, hp⟩ := Lib.exists_trace_of_run (System.step Flash.k70) (started 2#8)
    (requested ⟨0x70, 0, 0, 1⟩ (List.replicate 10 (.main 0)) ++
      requested ⟨0x70, 0, 1, 0⟩ [.main 0, .main 0])
    (fun tr _ => decide (replies tr = [⟨0x70, 0, 1, 1⟩, ⟨0x70, 0, 1, 1⟩])) (by decide +kernel)
  exact ⟨tr, s, h, of_decide_eq_true hp, replies_serve Flash.k70 Flash.k70_ideal
    (Flash.idle fun _ => 2#8) (Flash.not_failed_idle _) _ s (started_powerUp 2#8) tr h⟩

end Firmware
