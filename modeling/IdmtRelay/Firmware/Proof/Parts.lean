import IdmtRelay.Firmware.System

/-!
# What one step of the firmware can do

`Branch` lists the steps by what moves (`step_branch`). From it, every run of the firmware is one of
the serial link (`link_trace`) and one of the device whose ticks read the setting from the flash
(`device_trace`): what holds of every run of these holds in the firmware, whatever the main loop
does and wherever it is interrupted.
-/

namespace Firmware

open Serial (Link Msg)
open Trip (Call Curve Device DeviceIn Report)
open Flash (FTFE)

namespace System

/-- From `s` by what moves to the state after the step. -/
inductive Branch (launch : FTFE → FTFE) (s : System) : Act → System → Prop
  | uart {s1Rx s1Tx d : uint8_t} {o : List Serial.Out} {l : Link}
      (h : Link.Step s.link (.isr s1Rx s1Tx d, o) l) :
      Branch launch s (.link (.isr s1Rx s1Tx d) o) { s with link := l }
  | tick {i : DeviceIn} {o : List Trip.Out} {d : Device} (hi : i.setting = s.statics.byte)
      (h : Device.Step s.device (i, o) d) : Branch launch s (.tick i o) { s with device := d }
  | resume {c : Serial.Put} {o : List Serial.Out} {l : Link} (hc : s.link.call = some c)
      (h : Link.Step s.link (.resume, o) l) : Branch launch s (.link .resume o) { s with link := l }
  | poll {o : List Serial.Out} {l : Link} (hc : s.link.call = none) (ht : s.task = .poll)
      (h : Link.Step s.link (.packetGet, o) l) :
      Branch launch s (.link .packetGet o) { s with link := l, task := polled o }
  | handle {setting : uint8_t} {packet : Msg} {s' : System} (hc : s.link.call = none)
      (ht : s.task = .handle packet) (h : s.handleCommandPacket setting packet = some s') :
      Branch launch s .main s'
  | read {c : Call} {e : Report.Event} {o : List Trip.Out} {r : Report}
      (hc : s.link.call = none) (ht : s.task = .current c) (he : ∀ i, e ≠ .tick i)
      (h : Report.step e ⟨s.device.relay, c⟩ = .ok ((none, o), r)) :
      Branch launch s .main { s with task := .current r.call }
  | readLast {c : Call} {e : Report.Event} {m : Msg} {o : List Trip.Out} {r : Report}
      (hc : s.link.call = none) (ht : s.task = .current c) (he : ∀ i, e ≠ .tick i)
      (h : Report.step e ⟨s.device.relay, c⟩ = .ok ((some m, o), r)) :
      Branch launch s .main { s with task := .reply m }
  | set {slope : uint8_t} {w : Flash.Write} {o : Option uint8_t × List Trip.Out} {c : Curve}
      (hc : s.link.call = none) (ht : s.task = .set slope w)
      (h : Curve.Step launch ⟨s.statics, some w, s.device.relay⟩ (.command, o) c) :
      Branch launch s .main { s with
        statics := c.statics
        task := .afterSet slope c.call }
  | reply {m : Msg} {o : List Serial.Out} {l : Link} (hc : s.link.call = none)
      (ht : s.task = .reply m) (h : Link.Step s.link (.packetPut m, o) l) :
      Branch launch s (.link (.packetPut m) o) { s with link := l, task := .poll }

variable {launch : FTFE → FTFE} {s s' : System} {a : Act}

theorem of_linkStep {e : Serial.Event} {task : List Serial.Out → Task}
    (h : linkStep e task s = .ok (a, s')) : ∃ o l, Link.Step s.link (e, o) l ∧ a = .link e o ∧
      s' = { s with link := l, task := task o } := by
  unfold linkStep at h
  split at h
  · cases h
  · rename_i o l hl
    cases h
    exact ⟨o, l, hl, rfl, rfl⟩

theorem of_readCurrent {e : Report.Event} (he : ∀ i, e ≠ .tick i)
    (h : readCurrent e s = .ok (a, s')) :
    Branch launch s a s' := by
  unfold readCurrent at h
  split at h
  · rename_i c hc ht
    split at h
    · cases h
    · rename_i m o r hr
      cases h
      exact .readLast hc ht he hr
    · rename_i o r hr
      cases h
      exact .read hc ht he hr
  · cases h

theorem of_mainStep {setting : uint8_t} (hc : s.link.call = none)
    (h : mainStep launch setting s = .ok (a, s')) : Branch launch s a s' := by
  unfold mainStep at h
  split at h
  · rename_i ht
    obtain ⟨o, l, hl, rfl, rfl⟩ := of_linkStep h
    exact .poll hc ht hl
  · rename_i packet ht
    split at h
    · cases h
    · rename_i s₁ hs
      cases h
      exact .handle hc ht hs
  · cases h
  · rename_i slope w ht
    split at h
    · cases h
    · rename_i o c hs
      cases h
      exact .set hc ht hs
  · rename_i m ht
    obtain ⟨o, l, hl, rfl, rfl⟩ := of_linkStep h
    exact .reply hc ht hl

/-- **What one step can do.** -/
theorem step_branch {e : Event} (h : Step launch s (e, a) s') : Branch launch s a s' := by
  simp only [Step, Lib.StepOf, step] at h
  cases e with
  | uart s1Rx s1Tx d =>
    obtain ⟨o, l, hl, rfl, rfl⟩ := of_linkStep h
    exact .uart hl
  | pit i =>
    simp only at h
    split at h
    · cases h
    · rename_i o d hd
      cases h
      exact .tick rfl hd
  | main setting =>
    simp only at h
    split at h
    · rename_i hc
      exact of_mainStep hc h
    · rename_i c hc
      obtain ⟨o, l, hl, rfl, rfl⟩ := of_linkStep h
      exact .resume hc hl
  | readLo => exact of_readCurrent (fun i hi => by cases hi) h
  | readHi => exact of_readCurrent (fun i hi => by cases hi) h

/-! ## The handlers leave the link and the device alone -/

/-- Only the statics and the task change. -/
theorem handleCommandPacket_frame {setting : uint8_t} {packet : Msg}
    (h : s.handleCommandPacket setting packet = some s') :
    s'.link = s.link ∧ s'.device = s.device := by
  unfold handleCommandPacket at h
  split at h
  · split at h
    · obtain ⟨statics, -, h⟩ := Option.bind_eq_some_iff.1 h
      split at h
      · cases h
        exact ⟨rfl, rfl⟩
      · split at h
        · cases h
          exact ⟨rfl, rfl⟩
        · cases h
          exact ⟨rfl, rfl⟩
    · split at h
      · cases h
        exact ⟨rfl, rfl⟩
      · split at h
        · cases h
          exact ⟨rfl, rfl⟩
        · split at h
          · cases h
            exact ⟨rfl, rfl⟩
          · cases h
            exact ⟨rfl, rfl⟩
  · cases h
    exact ⟨rfl, rfl⟩

theorem projects_link : Lib.Projects (Step launch) Link.Step (fun _ => True) System.link
    (fun l => Act.ofLink l.2) := by
  intro s ⟨e, a⟩ s' _ hst
  cases step_branch hst with
  | uart h => exact h
  | tick hi h => rfl
  | resume hc h => exact h
  | poll hc ht h => exact h
  | handle hc ht h => exact (handleCommandPacket_frame h).1
  | read hc ht he h => rfl
  | readLast hc ht he h => rfl
  | set hc ht h => rfl
  | reply hc ht h => exact h

theorem projects_device : Lib.Projects (Step launch) Device.Step (fun _ => True) System.device
    (fun l => Act.ofDevice l.2) := by
  intro s ⟨e, a⟩ s' _ hst
  cases step_branch hst with
  | uart h => rfl
  | tick hi h => exact h
  | resume hc h => rfl
  | poll hc ht h => rfl
  | handle hc ht h => exact (handleCommandPacket_frame h).2
  | read hc ht he h => rfl
  | readLast hc ht he h => rfl
  | set hc ht h => rfl
  | reply hc ht h => rfl

/-- **Every run of the firmware is a run of the serial link.** -/
theorem link_trace {tr : Steps} (h : Lib.Trace (Step launch) s tr s') :
    Link.Trace s.link (linkShare tr) s'.link :=
  h.project projects_link (fun _ _ _ _ _ => trivial) trivial

/-- **Every run of the firmware is a run of the device.** -/
theorem device_trace {tr : Steps} (h : Lib.Trace (Step launch) s tr s') :
    Lib.Trace Device.Step s.device (deviceShare tr) s'.device :=
  h.project projects_device (fun _ _ _ _ _ => trivial) trivial

end System

end Firmware
