import IdmtRelay.Firmware.Proof.Serve
import IdmtRelay.Lib.Variant
import IdmtRelay.Serial.Proof.Transmit

/-!
# The main loop comes to rest

`work` bounds the steps the main loop still takes: those of the handler it is in, of the call of
`PacketPut` in progress, and eleven for each byte in `RxFIFO`. Each of its steps pays for itself and
no tick or transmission adds to it (`work_variant`), and the loop is never stuck (`main_enabled`).
So whatever interrupts it, it has handled what was received after a bounded number of its own steps
(`main_settles`).
-/

namespace Firmware

open Flash (FTFE)
open Serial (Link Msg Put)
open Trip (Call Curve Report Statics)

/-- The main loop moves, not an interrupt handler. -/
def Act.ofMain : Act → Bool
  | .link (.isr _ _ _) _ => false
  | .tick _ _ => false
  | _ => true

/-- The step receives no byte. -/
def NoReception (_ : System) (l : Event × Act) : Prop :=
  match l.2 with
  | .link _ o => Link.received o = []
  | _ => True

instance (s : System) : ∀ l : Event × Act, Decidable (NoReception s l)
  | (_, .link _ o) => inferInstanceAs (Decidable (Link.received o = []))
  | (_, .tick _ _) => inferInstanceAs (Decidable True)
  | (_, .main) => inferInstanceAs (Decidable True)

/-- The main loop polls, and nothing is left to poll for. -/
structure Resting (s : System) : Prop where
  task : s.task = .poll
  call : s.link.call = none
  rx : s.link.uart.rxFIFO.bytes = []

/-! ## The work left -/

/-- The steps of the main loop until it polls again, with those of the `PacketPut` to come. -/
def Task.work : Task → Nat
  | .poll => 0
  | .handle _ => 10
  | .current .idle => 9
  | .current (.lo _) => 8
  | .current (.hi _) => 8
  | .set _ w => if w.erased then 8 else 9
  | .reply _ => 7

/-- The steps of a call of `PacketPut`. -/
def callWork : Option Put → Nat
  | none => 0
  | some c => if c.success then c.rest.length + 1 else 1

def work (s : System) : Nat :=
  s.task.work + callWork s.link.call + 11 * s.link.uart.rxFIFO.bytes.length

theorem Task.work_poll : Task.poll.work = 0 := rfl

theorem Task.work_handle (q : Msg) : (Task.handle q).work = 10 := rfl

theorem Task.work_reply (m : Msg) : (Task.reply m).work = 7 := rfl

theorem callWork_none : callWork none = 0 := rfl

theorem Task.work_le (t : Task) : t.work ≤ 10 := by
  unfold work
  repeat' split
  all_goals omega

theorem resting_of_work {s : System} (h : work s = 0) : Resting s := by
  unfold work at h
  have htask : s.task.work = 0 := by omega
  have hcall : callWork s.link.call = 0 := by omega
  refine ⟨?_, ?_, List.eq_nil_of_length_eq_zero (by omega)⟩
  · cases ht : s.task with
    | poll => rfl
    | handle => simp [ht, Task.work] at htask
    | current c => cases c <;> simp [ht, Task.work] at htask
    | set slope w =>
      rw [ht, Task.work] at htask
      split at htask <;> simp at htask
    | reply => simp [ht, Task.work] at htask
  · cases hc : s.link.call with
    | none => rfl
    | some c =>
      rw [hc, callWork] at hcall
      split at hcall <;> simp at hcall

/-! ## The link -/

theorem isr_rx {u : Serial.UART} {s1Rx s1Tx d : uint8_t}
    (h : Link.received (u.isr s1Rx s1Tx d).1 = []) :
    (u.isr s1Rx s1Tx d).2.rxFIFO = u.rxFIFO := by
  rw [Serial.UART.isr_eq] at h ⊢
  have hrx : (u.isrRx s1Rx d).2.rxFIFO = u.rxFIFO := by
    rcases u.isrRx_cases s1Rx d with he | he
    · rw [he]
    · rw [he, Link.received_append] at h
      simp [Link.received] at h
  rw [← hrx]
  rcases (u.isrRx s1Rx d).2.isrTx_cases s1Tx with he | ⟨b, bs, -, -, -, he⟩ | ⟨-, -, he⟩
  · rw [he]
  · rw [he]
  · rw [he]

/-- A step of the call in progress is one of the steps left. -/
theorem put_work {c : Put} {u : Serial.UART} :
    (c.step u).2.rxFIFO = u.rxFIFO ∧ match c.step u with
      | (.inl c', _) => callWork (some c') + 1 ≤ callWork (some c)
      | (.inr _, _) => 1 ≤ callWork (some c) := by
  obtain ⟨rest, success⟩ := c
  cases rest with
  | nil => cases success <;> exact ⟨rfl, Nat.le_refl _⟩
  | cons it rest =>
    cases success with
    | false => exact ⟨rfl, Nat.le_refl _⟩
    | true =>
      refine ⟨rfl, ?_⟩
      show (if (u.outChar it).1 then rest.length + 1 else 1) + 1 ≤ rest.length + 1 + 1
      split <;> omega

variable {l l' : Link} {o : List Serial.Out}

theorem isr_step {s1Rx s1Tx d : uint8_t} (h : Link.Step l (.isr s1Rx s1Tx d, o) l')
    (ho : Link.received o = []) : l'.call = l.call ∧ l'.uart.rxFIFO = l.uart.rxFIFO := by
  have hb : Link.Branch l (.isr s1Rx s1Tx d) o l' := Link.step_branch h
  cases hb
  exact ⟨rfl, isr_rx ho⟩

theorem resume_step (h : Link.Step l (.resume, o) l') :
    callWork l'.call + 1 ≤ callWork l.call ∧ l'.uart.rxFIFO = l.uart.rxFIFO := by
  have hb : Link.Branch l .resume o l' := Link.step_branch h
  cases hb with
  | @resume c c' u hc hs =>
    obtain ⟨hrx, hlen⟩ := put_work (c := c) (u := l.uart)
    rw [hs] at hrx hlen
    rw [hc]
    exact ⟨hlen, hrx⟩
  | @ret c success u hc hs =>
    obtain ⟨hrx, hlen⟩ := put_work (c := c) (u := l.uart)
    rw [hs] at hrx hlen
    rw [hc]
    exact ⟨hlen, hrx⟩

theorem packetPut_step {m : Msg} (h : Link.Step l (.packetPut m, o) l') :
    callWork l'.call = 6 ∧ l'.uart.rxFIFO = l.uart.rxFIFO := by
  have hb : Link.Branch l (.packetPut m) o l' := Link.step_branch h
  cases hb
  exact ⟨rfl, rfl⟩

/-- A poll takes a byte if there is one. -/
theorem packetGet_step (h : Link.Step l (.packetGet, o) l') : l'.call = l.call ∧
    l'.uart.rxFIFO.bytes = l.uart.rxFIFO.bytes.drop 1 ∧
    (l.uart.rxFIFO.bytes = [] → Link.got o = []) := by
  have hb : Link.Branch l .packetGet o l' := Link.step_branch h
  cases hb with
  | packetGet hc =>
    cases hrx : l.uart.rxFIFO.bytes with
    | nil =>
      rw [Link.packetGet_of_nil l.packet hrx]
      exact ⟨rfl, hrx, fun _ => rfl⟩
    | cons b bs =>
      rw [Link.packetGet_of_cons l.packet hrx]
      exact ⟨rfl, (Serial.Fifo.get_of_cons hrx 0).2.2, fun hnil => by cases hnil⟩

/-! ## One step -/

variable {launch : FTFE → FTFE} {s s' : System} {e : Event} {a : Act}

/-- The flash error flag stays clear: `Set` reports success, whatever its commands do. -/
theorem success_step (hs : s.statics.success = true) (h : System.Step launch s (e, a) s') :
    s'.statics.success = true := by
  cases System.step_branch h with
  | handle hc ht hh => cases handles_of hs hh <;> exact hs
  | @set slope w o c hc ht hset =>
    simp only [Curve.Step, Lib.StepOf, Curve.step] at hset
    split at hset
    · cases hset
      exact hs
    · cases hset
      rfl
  | uart hlink => exact hs
  | tick hi hd => exact hs
  | resume hc hlink => exact hs
  | poll hc ht hlink => exact hs
  | read hc ht he hr => exact hs
  | readLast hc ht he hr => exact hs
  | reply hc ht hlink => exact hs

/-- A packet leaves at most ten steps to do. -/
theorem handles_work {q : Msg} (h : Handles s q s') :
    s'.task.work ≤ 9 ∧ s'.link = s.link := by
  cases h <;> exact ⟨by simp [Task.work, Flash.Write.start8], rfl⟩

theorem read_work {ev : Report.Event} {c : Call} {r : Trip.Relay} {r' : Report}
    {o : Option Msg × List Trip.Out} (he : ∀ i, ev ≠ .tick i)
    (h : Report.step ev ⟨r, c⟩ = .ok (o, r')) :
    match o.1 with
    | none => (Task.current r'.call).work + 1 ≤ (Task.current c).work
    | some _ => 8 ≤ (Task.current c).work := by
  cases ev with
  | tick i => exact absurd rfl (he i)
  | readLo =>
    cases c <;> cases h
    · exact Nat.le_refl _
    · exact Nat.le_refl _
  | readHi =>
    cases c <;> cases h
    · exact Nat.le_refl _
    · exact Nat.le_refl _

theorem set_work (slope : uint8_t) {w : Flash.Write} {r : Trip.Relay} {st : Statics}
    {o : Option uint8_t × List Trip.Out} {c : Curve}
    (h : Curve.Step launch ⟨st, some w, r⟩ (.command, o) c) :
    (Task.afterSet slope c.call).work + 1 ≤ (Task.set slope w).work := by
  simp only [Curve.Step, Lib.StepOf, Curve.step, Flash.Write.step] at h
  cases he : w.erased with
  | true =>
    simp only [he, if_true] at h
    cases h
    simp [Task.afterSet, Task.work, he]
  | false =>
    simp only [he, Bool.false_eq_true, if_false] at h
    cases h
    simp [Task.afterSet, Task.work, he]

theorem resting_step (hr : Resting s) (hno : NoReception s (e, a))
    (h : System.Step launch s (e, a) s') : Resting s' := by
  have htask := hr.task
  cases System.step_branch h with
  | uart hlink =>
    obtain ⟨hcall, hrx⟩ := isr_step hlink hno
    refine ⟨hr.task, hcall.trans hr.call, ?_⟩
    show _ = []
    rw [hrx, hr.rx]
  | tick hi hd => exact ⟨hr.task, hr.call, hr.rx⟩
  | resume hc hlink =>
    rw [hr.call] at hc
    cases hc
  | poll hc ht hlink =>
    obtain ⟨hcall, hrx, hgot⟩ := packetGet_step hlink
    refine ⟨?_, hcall.trans hc, ?_⟩
    · show System.polled _ = _
      rw [System.polled, hgot hr.rx]
    · show _ = []
      rw [hrx, hr.rx]
      rfl
  | handle hc ht hh =>
    rw [ht] at htask
    cases htask
  | read hc ht he hread =>
    rw [ht] at htask
    cases htask
  | readLast hc ht he hread =>
    rw [ht] at htask
    cases htask
  | set hc ht hset =>
    rw [ht] at htask
    cases htask
  | reply hc ht hlink =>
    rw [ht] at htask
    cases htask

theorem polled_work (o : List Serial.Out) : (System.polled o).work ≤ 10 :=
  Task.work_le _

/-- **Every step of the main loop is one of the steps left.** -/
theorem work_step (hs : s.statics.success = true) (hr : ¬ Resting s) (hno : NoReception s (e, a))
    (h : System.Step launch s (e, a) s') : work s' + a.ofMain.toNat ≤ work s := by
  unfold work
  cases System.step_branch h with
  | uart hlink =>
    obtain ⟨hcall, hrx⟩ := isr_step hlink hno
    rw [hcall, hrx]
    exact Nat.le_refl _
  | tick hi hd => exact Nat.le_refl _
  | resume hc hlink =>
    obtain ⟨hlen, hrx⟩ := resume_step hlink
    simp only [Act.ofMain, Bool.toNat_true, hrx]
    omega
  | @poll o l hc ht hlink =>
    obtain ⟨hcall, hrx, -⟩ := packetGet_step hlink
    have hle := polled_work o
    have hne : s.link.uart.rxFIFO.bytes ≠ [] := fun hnil => hr ⟨ht, hc, hnil⟩
    have hpos := List.length_pos_iff.2 hne
    simp only [Act.ofMain, Bool.toNat_true, hcall, hrx, List.length_drop]
    omega
  | handle hc ht hh =>
    obtain ⟨hle, hlink⟩ := handles_work (handles_of hs hh)
    simp only [Act.ofMain, Bool.toNat_true, hlink, ht, Task.work_handle]
    omega
  | read hc ht he hread =>
    have hle := read_work he hread
    simp only [Act.ofMain, Bool.toNat_true, ht]
    omega
  | readLast hc ht he hread =>
    have hle := read_work he hread
    simp only [Act.ofMain, Bool.toNat_true, ht]
    rw [Task.work_reply]
    omega
  | @set slope w o c hc ht hset =>
    have hle := set_work slope hset
    simp only [Act.ofMain, Bool.toNat_true, ht]
    omega
  | reply hc ht hlink =>
    obtain ⟨hcall, hrx⟩ := packetPut_step hlink
    simp only [Act.ofMain, Bool.toNat_true, hcall, hrx, ht, Task.work_reply, Task.work_poll, hc,
      callWork_none]
    omega

/-- The steps of a run in which nothing is received. -/
abbrev Undisturbed (launch : FTFE → FTFE) := Lib.Guarded NoReception (System.Step launch)

theorem work_variant : Lib.Variant (Undisturbed launch) (fun s => s.statics.success = true)
    Resting work (fun l => l.2.ofMain) where
  inv hs h := success_step hs h.2
  stable _ hr h := resting_step hr h.1 h.2
  pays hs hr h := work_step hs hr h.1 h.2
  goal := resting_of_work

/-! ## The loop is never stuck -/

theorem exists_handles (setting : uint8_t) (q : Msg) (hs : s.statics.success = true) :
    ∃ s', s.handleCommandPacket setting q = some s' := by
  unfold System.handleCommandPacket
  simp only [construct_of_success hs, Option.bind_eq_bind, Option.bind_some]
  repeat' split
  all_goals exact ⟨_, rfl⟩

theorem exists_linkStep (ev : Serial.Event) (task : List Serial.Out → Task)
    (h : ∃ o l, Link.step ev s.link = .ok (o, l)) :
    ∃ o s', System.linkStep ev task s = .ok (.link ev o, s') := by
  obtain ⟨o, l, h⟩ := h
  refine ⟨o, { s with link := l, task := task o }, ?_⟩
  rw [System.linkStep, h]

/-- **The main loop can always take its next step.** -/
theorem main_enabled (launch : FTFE → FTFE) (hs : s.statics.success = true) :
    ∃ e a s', Act.ofMain a = true ∧ System.Step launch s (e, a) s' := by
  cases hc : s.link.call with
  | some c =>
    obtain ⟨o, s', h⟩ := exists_linkStep .resume (fun _ => s.task) (Link.resume_enabled hc)
    refine ⟨.main 0, .link .resume o, s', rfl, ?_⟩
    simp only [System.Step, Lib.StepOf, System.step, hc]
    exact h
  | none =>
    cases ht : s.task with
    | poll =>
      obtain ⟨o, s', h⟩ := exists_linkStep (s := s) .packetGet System.polled (by
        simp only [Link.step, hc]
        exact ⟨_, _, rfl⟩)
      refine ⟨.main 0, .link .packetGet o, s', rfl, ?_⟩
      simp only [System.Step, Lib.StepOf, System.step, hc, System.mainStep, ht]
      exact h
    | handle q =>
      obtain ⟨s', h⟩ := exists_handles 0 q hs
      refine ⟨.main 0, .main, s', rfl, ?_⟩
      simp only [System.Step, Lib.StepOf, System.step, hc, System.mainStep, ht, h]
    | current c =>
      cases c with
      | idle =>
        refine ⟨.readLo, .main,
          { s with task := .current (.lo s.device.relay.current.lo8) }, rfl, ?_⟩
        simp only [System.Step, Lib.StepOf, System.step, System.readCurrent, hc, ht, Report.step]
      | lo Lo =>
        refine ⟨.readHi, .main, { s with
          task := .reply ⟨Trip.CMD_DOR_CURRENT, 2, Lo, s.device.relay.current.hi8⟩ }, rfl, ?_⟩
        simp only [System.Step, Lib.StepOf, System.step, System.readCurrent, hc, ht, Report.step]
      | hi Hi =>
        refine ⟨.readLo, .main, { s with
          task := .reply ⟨Trip.CMD_DOR_CURRENT, 2, s.device.relay.current.lo8, Hi⟩ }, rfl, ?_⟩
        simp only [System.Step, Lib.StepOf, System.step, System.readCurrent, hc, ht, Report.step]
    | set slope w =>
      cases he : w.erased with
      | true =>
        refine ⟨.main 0, .main, { s with
          statics := { s.statics with
            success := true
            flash := Flash.programPhrase launch w.address w.phrase s.statics.flash }
          task := .afterSet slope none }, rfl, ?_⟩
        simp only [System.Step, Lib.StepOf, System.step, hc, System.mainStep, ht, Curve.step,
          Flash.Write.step, he, if_true]
      | false =>
        refine ⟨.main 0, .main, { s with
          statics := { s.statics with
            flash := (Flash.eraseSector launch Flash.FLASH_DATA_START s.statics.flash).2 }
          task := .afterSet slope (some { w with erased := true }) }, rfl, ?_⟩
        simp only [System.Step, Lib.StepOf, System.step, hc, System.mainStep, ht, Curve.step,
          Flash.Write.step, he, Bool.false_eq_true, if_false]
    | reply m =>
      obtain ⟨o, s', h⟩ := exists_linkStep (s := s) (.packetPut m) (fun _ => .poll) (by
        simp only [Link.step, hc]
        exact ⟨_, _, rfl⟩)
      refine ⟨.main 0, .link (.packetPut m) o, s', rfl, ?_⟩
      simp only [System.Step, Lib.StepOf, System.step, hc, System.mainStep, ht]
      exact h

/-! ## Runs -/

theorem work_le (hs : s.link.TxSafe) :
    work s ≤ 11 * s.link.uart.rxFIFO.bytes.length + 16 := by
  have htask := Task.work_le s.task
  have hcall : callWork s.link.call ≤ 6 := by
    have hleft := hs.left_le
    unfold Link.left at hleft
    unfold callWork
    cases hc : s.link.call with
    | none => decide
    | some c =>
      obtain ⟨rest, success⟩ := c
      cases success with
      | true =>
        rw [hc] at hleft
        exact Nat.succ_le_succ hleft
      | false => simp
  unfold work
  omega

/-- **The main loop comes to rest, whatever interrupts it.** From every state a run of the firmware
reaches, the main loop can take its next step; and in every continuation in which nothing more is
received, with any ticks and transmissions in between, it has handled all that was received after at
most eleven of its steps for each byte in `RxFIFO` and sixteen more. -/
theorem main_settles (launch : FTFE → FTFE) (f : Flash.State) (s₀ s : System) (h0 : PowerUp f s₀)
    (tr : Steps) (h : Lib.Trace (System.Step launch) s₀ tr s) :
    (∃ e a s', Act.ofMain a = true ∧ System.Step launch s (e, a) s') ∧
    ∀ (tr' : Steps) (s' : System), Lib.Trace (Undisturbed launch) s tr' s' →
      11 * s.link.uart.rxFIFO.bytes.length + 16 ≤ tr'.countP (fun p => p.1.2.ofMain) →
      Resting s' := by
  have hsuccess : s.statics.success = true := by
    obtain ⟨s₁, h₁, hs₁, -⟩ := Statics.construct_powerUp f
    have hs₀ : s₀.statics.success = true := by
      rw [← Option.some.inj (h₁.symm.trans h0.statics)]
      exact hs₁
    exact h.inv (fun s => s.statics.success = true) hs₀ fun _ _ _ => success_step
  have hsafe : s.link.TxSafe := (System.link_trace h).inv Link.TxSafe
    ⟨by simp [Link.left, h0.call], .inr (by simp [Link.left, h0.call, h0.txFIFO])⟩
    fun _ _ _ => Link.txSafe_step
  refine ⟨main_enabled launch hsuccess, fun tr' s' h' hle => ?_⟩
  exact work_variant.settled hsuccess h' ((work_le hsafe).trans hle)

/-- A request for the current has been received and nothing been polled. -/
def waiting : System :=
  match Lib.run (System.step Flash.k70) (started 2#8)
      ((Msg.bytes ⟨0x70, 1, 0, 0⟩).map fun d => .uart 0x20 0 d) with
  | .ok (_, s) => s
  | .error _ => started 2#8

/-- The main loop handles it, a tick and a transmission in between. -/
theorem main_settles_waiting : ∃ tr', ∃ s' : System,
    Lib.Trace (Undisturbed Flash.k70) waiting tr' s' ∧
    replies tr' = [⟨0x71, 2, 0, 0⟩] ∧ Resting s' := by
  obtain ⟨tr, s, h, hs⟩ := Lib.exists_run (System.step Flash.k70) (started 2#8)
    ((Msg.bytes ⟨0x70, 1, 0, 0⟩).map fun d => .uart 0x20 0 d)
    (fun _ s => decide (s.link.uart.rxFIFO.bytes.length = 5)) (by decide +kernel)
  have hw : waiting = s := by
    unfold waiting
    rw [h]
  obtain ⟨tr', s', h', hp⟩ := Lib.exists_guarded_of_run NoReception ()
    (System.step Flash.k70) waiting
    (List.replicate 6 (.main 0) ++ [.readHi,
      .pit { reading := none, analogPut := fun _ _ => true, setting := 0 }, .readLo, .main 0,
      .main 0, .uart 0 0x80 0] ++ List.replicate 64 (.main 0))
    (fun tr _ => decide (replies tr = [⟨0x71, 2, 0, 0⟩] ∧
      71 ≤ tr.countP fun p => p.1.2.ofMain)) (by decide +kernel)
  obtain ⟨hrep, hcount⟩ := of_decide_eq_true hp
  refine ⟨tr', s', h', hrep, ?_⟩
  rw [hw] at h'
  refine (main_settles Flash.k70 (Flash.idle fun _ => 2#8) (started 2#8) s (started_powerUp 2#8) tr
    (Lib.trace_of_run h)).2 tr' s' h' ?_
  rw [of_decide_eq_true hs]
  exact hcount

end Firmware
