import IdmtRelay.Flash.Proof.Command
import IdmtRelay.Lib.Trace
import IdmtRelay.Trip.Setting

/-!
# The setting that SCADA reads is the one it set

`Stored` holds once the global object is constructed: the pointer to the setting is the start of the
block, and no flash error is set. Byte 0 of the block is one that the wrong order of the data
registers leaves in place, so `Set` stores its byte there (`set_spec`); no object constructed later
allocates again (`construct_stored`). A request keeps the invariant and answers with the byte that
is then stored (`handle_spec`), and so a run of requests answers with the latest one set
(`setting_latest`).
-/

namespace Trip

open Flash (FTFE FLASH_DATA_START)

/-- What a request leaves in the setting, if it sets it. -/
def Request.sets (r : Request) (_ : Unit) : Option uint8_t :=
  if r.Get then none else some r.packet.parameter3

/-- The setting of the latest request that sets it, or else `b`. -/
def latest (b : uint8_t) (rs : List Request) : uint8_t :=
  Lib.Store.reads Request.sets (fun _ => b) rs ()

theorem latest_snoc (b : uint8_t) (rs : List Request) (r : Request) :
    latest b (rs ++ [r]) = if r.Get then latest b rs else r.packet.parameter3 := by
  unfold latest
  rw [Lib.Store.reads_snoc]
  unfold Lib.Store.overwrite Request.sets
  split <;> rfl

namespace Statics

/-- The statics after the first constructor. -/
structure Stored (s : Statics) : Prop where
  success : s.success = true
  setting : s.setting = FLASH_DATA_START
  ready : Flash.Ready s.flash

/-- The first constructor gives the setting the first byte of the block. -/
theorem construct_powerUp (f : Flash.State) : ∃ s, (powerUp f).construct = some s ∧
    s.success = true ∧ s.setting = FLASH_DATA_START ∧ s.flash = f :=
  ⟨_, rfl, rfl, BitVec.add_zero FLASH_DATA_START, rfl⟩

variable {launch : FTFE → FTFE} {s : Statics}

theorem construct_stored (h : s.Stored) : s.construct = some s := by
  unfold construct
  rw [h.success]
  rfl

theorem byte_eq (h : s.Stored) : s.byte = s.flash.block 0 := by
  unfold byte
  rw [h.setting]
  exact s.flash.FB_address 0 (n := 0) rfl

theorem set_eq (h : s.success = true) (slope : uint8_t) : s.set launch slope = { s with
    success := true
    flash := (Flash.write8 launch s.setting slope s.flash).2 } := by
  have hw := congrArg Prod.fst (Flash.write8_eq launch s.setting slope s.flash)
  unfold set
  rw [if_pos h]
  simp only [hw]
  rfl

/-- **`Set` stores its byte.** -/
theorem set_spec (hl : Flash.Ideal launch) (h : s.Stored) (slope : uint8_t) :
    (s.set launch slope).Stored ∧ (s.set launch slope).byte = slope := by
  obtain ⟨hblock, hready⟩ := Flash.block_exec hl (.write8 0 slope) s.flash h.ready
  have hset : s.set launch slope = _ := set_eq h.success slope
  rw [h.setting] at hset
  have hstored : (s.set launch slope).Stored := by
    rw [hset]
    exact ⟨rfl, rfl, hready⟩
  refine ⟨hstored, ?_⟩
  rw [byte_eq hstored, hset]
  exact (congrFun hblock 0).trans rfl

end Statics

open Statics

variable {launch : FTFE → FTFE} {s : Statics}

theorem handle_spec (hl : Flash.Ideal launch) (h : s.Stored) (r : Request) : ∃ s',
    handleIDMTCharacteristic launch r s = .ok (⟨CMD_DOR, 0, 1, s'.byte⟩, s') ∧ s'.Stored ∧
      s'.byte = if r.Get then s.byte else r.packet.parameter3 := by
  unfold handleIDMTCharacteristic
  rw [construct_stored h]
  by_cases hg : r.Get
  · refine ⟨s, ?_, h, (if_pos hg).symm⟩
    simp only [if_pos hg, getSetting, if_pos h.success]
  · obtain ⟨hs, hb⟩ := set_spec hl h r.packet.parameter3
    refine ⟨s.set launch r.packet.parameter3, ?_, hs, ?_⟩
    · simp only [if_neg hg, hb]
    · rw [hb, if_neg hg]

/-- A run of requests goes through and leaves the latest setting. -/
theorem run_latest (hl : Flash.Ideal launch) (h : s.Stored) (rs : List Request) : ∃ tr s',
    Lib.run (handleIDMTCharacteristic launch) s rs = .ok (tr, s') ∧ s'.Stored ∧
      s'.byte = latest s.byte rs := by
  have hgo : ∀ r s, s.Stored → ∃ m s', handleIDMTCharacteristic launch r s = .ok (m, s') ∧
      s'.Stored := by
    intro r s hs
    obtain ⟨s', hh, hs', -⟩ := handle_spec hl hs r
    exact ⟨_, s', hh, hs'⟩
  obtain ⟨tr, s', hrun, -⟩ := Lib.exists_run_of_inv hgo h rs
  have key : s'.Stored ∧ s'.byte = latest s.byte (tr.map (·.1.1)) := by
    refine (Lib.trace_of_run hrun).history
      (fun tr s' => s'.Stored ∧ s'.byte = latest s.byte (tr.map (·.1.1))) ⟨h, rfl⟩ ?_
    intro tr s₁ ⟨r, m⟩ s₂ ⟨hs, hb⟩ hst
    obtain ⟨s₂', hh, hs', hb'⟩ := handle_spec hl hs r
    obtain rfl : s₂' = s₂ := congrArg Prod.snd (Except.ok.inj (hh.symm.trans hst))
    rw [List.map_append, List.map_singleton, latest_snoc, ← hb]
    exact ⟨hs', hb'⟩
  rw [Lib.inputs_of_run hrun] at key
  exact ⟨tr, s', hrun, key⟩

/-- **The setting is the latest one set.** From power-up, with the global object constructed first,
every sequence of requests runs through; then `*setting` is the byte of the latest request that set
it, or the one stored at power-up, `GetTripTime` evaluates the curve of that byte, and a request for
the setting is answered with it. -/
theorem setting_latest (launch : FTFE → FTFE) (hl : Flash.Ideal launch) (f : Flash.State)
    (h : ¬ f.ftfe.Failed) : ∃ s₀, (powerUp f).construct = some s₀ ∧
      ∀ rs : List Request, ∃ tr s,
        Lib.run (handleIDMTCharacteristic launch) s₀ rs = .ok (tr, s) ∧
        s.byte = latest (f.FB FLASH_DATA_START) rs ∧
        (∀ current i, s.getTripTime current i =
          IDMT.getTripTime (latest (f.FB FLASH_DATA_START) rs) current i) ∧
        ∀ r : Request, r.Get → ∃ s', handleIDMTCharacteristic launch r s =
          .ok (⟨CMD_DOR, 0, 1, latest (f.FB FLASH_DATA_START) rs⟩, s') := by
  obtain ⟨s₀, hc, hsuccess, hsetting, hflash⟩ := construct_powerUp f
  have h₀ : s₀.Stored := ⟨hsuccess, hsetting, by rw [hflash]; exact h⟩
  have hbyte : s₀.byte = f.FB FLASH_DATA_START := by rw [byte, hsetting, hflash]
  refine ⟨s₀, hc, fun rs => ?_⟩
  obtain ⟨tr, s, hrun, hs, hb⟩ := run_latest hl h₀ rs
  rw [hbyte] at hb
  have htime : ∀ current i, s.getTripTime current i =
      IDMT.getTripTime (latest (f.FB FLASH_DATA_START) rs) current i := by
    intro current i
    rw [getTripTime, hb]
  refine ⟨tr, s, hrun, hb, htime, fun r hg => ?_⟩
  obtain ⟨s', hh, -, hb'⟩ := handle_spec hl hs r
  rw [hb', if_pos hg, hb] at hh
  exact ⟨s', hh⟩

/-- Curve 2 is set over a block of zeros, asked for, and curve 1 set, which trips after 1 s. -/
theorem setting_latest_idle : ∃ s₀ tr s,
    (powerUp (Flash.idle fun _ => 0#8)).construct = some s₀ ∧
    Lib.run (handleIDMTCharacteristic Flash.k70) s₀ [⟨⟨0x70, 0, 0, 2⟩, 0⟩, ⟨⟨0x70, 0, 1, 0⟩, 0⟩,
      ⟨⟨0x70, 0, 0, 1⟩, 0⟩] = .ok (tr, s) ∧
    s.byte = 1#8 ∧ s.getTripTime 29696#16 ⟨0#32, 0#32⟩ = .ok (65536#32, ⟨65536#32, 950272#32⟩) := by
  obtain ⟨s₀, hc, hall⟩ := setting_latest Flash.k70 Flash.k70_ideal (Flash.idle fun _ => 0#8)
    (Flash.not_failed_idle _)
  obtain ⟨tr, s, hrun, hb, htime, -⟩ := hall [⟨⟨0x70, 0, 0, 2⟩, 0⟩, ⟨⟨0x70, 0, 1, 0⟩, 0⟩,
    ⟨⟨0x70, 0, 0, 1⟩, 0⟩]
  refine ⟨s₀, tr, s, hc, hrun, hb, (htime 29696#16 ⟨0#32, 0#32⟩).trans ?_⟩
  decide +kernel

end Trip
