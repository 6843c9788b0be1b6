import IdmtRelay.Firmware.Proof.Progress
import IdmtRelay.Serial.Proof.Decode
import IdmtRelay.Serial.Proof.Wire

/-!
# From the wire to the wire

A client that sends the stream of some requests and scans what comes back as the firmware scans what
it receives finds the server's replies to these requests, and nothing besides (`answered`).
-/

namespace Firmware

open Flash (FTFE)
open Serial (Link Msg encode scan)

/-- The bytes on the wire are those of the replies, when no call of `PacketPut` was refused. -/
theorem transmitted_replies {launch : FTFE → FTFE} {f : Flash.State} {s₀ s : System} {tr : Steps}
    (h0 : PowerUp f s₀) (h : Lib.Trace (System.Step launch) s₀ tr s)
    (hput : ∀ b ∈ Link.results (Link.outs (linkShare tr)), b = true) (hc : s.link.call = none)
    (htx : s.link.uart.txFIFO.bytes = []) :
    Link.transmitted (Link.outs (linkShare tr)) = encode (replies tr) := by
  cases Link.wired_run h0.call h0.txFIFO (System.link_trace h) with
  | idle _ hsent =>
    have hbytes := hsent.eq_flatMap hput
    rw [Link.queued, htx, List.append_nil] at hbytes
    exact hbytes
  | busy hc' =>
    rw [hc] at hc'
    cases hc'

/-- **A client gets the replies to what it asked, whatever the schedule.** A run of the firmware
from power-up receives the stream of the packets `reqs` without overrun and refuses no call of
`PacketPut`; when the main loop rests and the transmitter has nothing left to send, the scan of the
transmitted bytes finds the server's replies to `reqs` and no rest. -/
theorem answered (launch : FTFE → FTFE) (hl : Flash.Ideal launch) (f : Flash.State)
    (hf : ¬ f.ftfe.Failed) (s₀ s : System) (h0 : PowerUp f s₀) (tr : Steps)
    (h : Lib.Trace (System.Step launch) s₀ tr s) (reqs : List Msg)
    (hrec : Link.received (Link.outs (linkShare tr)) = encode reqs)
    (hno : Link.NoOverrun (Link.outs (linkShare tr)))
    (hput : ∀ b ∈ Link.results (Link.outs (linkShare tr)), b = true) (hr : Resting s)
    (htx : s.link.uart.txFIFO.bytes = []) :
    ∃ rs, Serves f.block (During System.frequency tr) (During System.current tr) reqs rs ∧
      scan (Link.transmitted (Link.outs (linkShare tr))) = (rs, []) := by
  obtain ⟨qs, pending, hserved⟩ := served_run hl hf h0 h
  have hpending := hserved.serving.pending_le.2 hr.task
  have hgot : requests tr = reqs :=
    (Link.got_encode h0.aligned (System.link_trace h) hno hrec hr.rx).1
  have hqs : qs = reqs := by
    rw [← hgot, hserved.requests, hpending, List.append_nil]
  refine ⟨replies tr, hqs ▸ hserved.serves, ?_⟩
  have hscan := Serial.scan_encode (replies tr) []
  rw [List.append_nil] at hscan
  rw [transmitted_replies h0 h hput hr.call htx, hscan]
  simp [scan]

/-- The curve is set and asked for, and a packet of no request sent in between. -/
theorem answered_three : ∃ (tr : Steps) (s : System),
    Lib.Trace (System.Step Flash.k70) (started 2#8) tr s ∧
    Link.received (Link.outs (linkShare tr)) =
      encode [⟨0x70, 0, 0, 1⟩, ⟨0x70, 4, 0, 0⟩, ⟨0x70, 0, 1, 0⟩] ∧
    ∃ rs, Serves (Flash.idle fun _ => 2#8).block (During System.frequency tr)
        (During System.current tr) [⟨0x70, 0, 0, 1⟩, ⟨0x70, 4, 0, 0⟩, ⟨0x70, 0, 1, 0⟩] rs ∧
      scan (Link.transmitted (Link.outs (linkShare tr))) = (rs, []) := by
  obtain ⟨tr, s, h, hp⟩ := Lib.exists_trace_of_run (System.step Flash.k70) (started 2#8)
    (requested ⟨0x70, 0, 0, 1⟩ (List.replicate 10 (.main 0)) ++
      requested ⟨0x70, 4, 0, 0⟩ [.main 0, .uart 0 0x80 0] ++
      requested ⟨0x70, 0, 1, 0⟩ (List.replicate 8 (.main 0)) ++
      List.replicate 10 (.uart 0 0x80 0))
    (fun tr s => decide ((Link.received (Link.outs (linkShare tr)) =
        encode [⟨0x70, 0, 0, 1⟩, ⟨0x70, 4, 0, 0⟩, ⟨0x70, 0, 1, 0⟩] ∧
      Link.NoOverrun (Link.outs (linkShare tr)) ∧
      ∀ b ∈ Link.results (Link.outs (linkShare tr)), b = true) ∧
      (s.task = .poll ∧ s.link.call = none ∧ s.link.uart.rxFIFO.bytes = []) ∧
      s.link.uart.txFIFO.bytes = [])) (by decide +kernel)
  obtain ⟨⟨hrec, hno, hput⟩, ⟨ht, hc, hrx⟩, htx⟩ := of_decide_eq_true hp
  exact ⟨tr, s, h, hrec, answered Flash.k70 Flash.k70_ideal (Flash.idle fun _ => 2#8)
    (Flash.not_failed_idle _) _ s (started_powerUp 2#8) tr h _ hrec hno hput ⟨ht, hc, hrx⟩ htx⟩

end Firmware
