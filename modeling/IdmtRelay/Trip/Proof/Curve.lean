import IdmtRelay.Trip.Curve
import IdmtRelay.Trip.Proof.Setting

/-!
# What a tick reads while the curve is changed

A call of `Set` goes through three phases (`Phase`): nothing is written yet, the block is erased,
the call is done and the statics are those `Set` leaves. A tick reads the old byte in the first,
the new one in the last, and 0xFF in the one between (`phase_byte`): neither, unless one of them is
0xFF. The code that shares other data with an interrupt handler enters a critical section; this
does not.
-/

namespace Trip.Curve

open Flash (FTFE FLASH_DATA_START)
open Measure (OVERLOAD)

/-! ## One tick -/

theorem pit_eq (i : TickIn) (r : Relay) (b : uint8_t) : Relay.pit { i with setting := b } r =
    if OVERLOAD < (r.sensed i).current then do
      let s ← Relay.protect getInverTime { i with setting := b } (r.sensed i)
      return ((r.countdown i).1 ++ [.ledOn, (putSample i.analogPut 5#16 1#8).2], s)
    else .ok ((r.countdown i).1 ++ ((r.sensed i).reset i).1, ((r.sensed i).reset i).2) := rfl

/-- A tick that does not evaluate `GetTripTime` is the same for every setting. -/
theorem pit_setting {i : TickIn} {r : Relay} (h : ¬ (Event.tick i).Evaluates r) (b b' : uint8_t) :
    Relay.pit { i with setting := b } r = Relay.pit { i with setting := b' } r := by
  have hprotect : OVERLOAD < (r.sensed i).current → ∀ b,
      Relay.protect getInverTime { i with setting := b } (r.sensed i) =
        .ok (if (r.sensed i).current.hi8 ≠ (r.sensed i).prevCurrent then
          { r.sensed i with prevCurrent := (r.sensed i).current.hi8, flagTrip := false }
        else r.sensed i) := by
    intro hover b
    have hstay := fun he => h ⟨hover, he⟩
    unfold Relay.protect
    split at hstay
    · rename_i hhi
      rw [if_pos hhi, if_pos hhi, if_neg hstay]
      rfl
    · rename_i hhi
      rw [if_neg hhi, if_neg hhi, if_neg hstay]
  rw [pit_eq, pit_eq]
  split
  · rename_i hover
    rw [hprotect hover, hprotect hover]
  · rfl

variable {launch : FTFE → FTFE} {s₀ : Statics} {v : uint8_t} {c c' : Curve}

/-- A tick changes only the relay, and the byte it reads is that of the flash. -/
theorem tick_step {i : TickIn} {o : Option uint8_t × List Out} (h : Step launch c (.tick i, o) c') :
    ∃ r, c' = { c with relay := r } ∧
      o.1 = if (Event.tick i).Evaluates c.relay then some c.statics.byte else none := by
  simp only [Step, Lib.StepOf, step] at h
  split at h
  · cases h
  · cases h
    exact ⟨_, rfl, rfl⟩

/-! ## The phases of a call -/

/-- Where a call of `Set(v)` over the statics `s₀` can be. -/
inductive Phase (launch : FTFE → FTFE) (s₀ : Statics) (v : uint8_t) : Curve → Prop
  | called (r : Relay) : Phase launch s₀ v ⟨s₀, some (.start8 s₀.setting v s₀.flash), r⟩
  | erased (r : Relay) : Phase launch s₀ v
      ⟨{ s₀ with flash := (Flash.eraseSector launch FLASH_DATA_START s₀.flash).2 },
        some { Flash.Write.start8 s₀.setting v s₀.flash with erased := true }, r⟩
  | done (r : Relay) : Phase launch s₀ v ⟨s₀.set launch v, none, r⟩

theorem phase_step (h : s₀.success = true) (hp : Phase launch s₀ v c)
    {l : Event × (Option uint8_t × List Out)} (hst : Step launch c l c') :
    Phase launch s₀ v c' := by
  obtain ⟨e, o⟩ := l
  cases e with
  | command =>
    cases hp with
    | called r =>
      cases hst
      exact .erased r
    | erased r =>
      -- the second command completes `Write8`, so the statics are those of the whole `Set`
      have hd : Phase launch s₀ v ⟨s₀.set launch v, none, r⟩ := .done r
      rw [Statics.set_eq h, Flash.write8_eq, Flash.writePhrase_eq] at hd
      cases hst
      exact hd
    | done r => cases hst
  | tick i =>
    obtain ⟨r, rfl, -⟩ := tick_step hst
    cases hp with
    | called => exact .called r
    | erased => exact .erased r
    | done => exact .done r

/-- What is read in the three phases. -/
theorem phase_byte (hl : Flash.Ideal launch) (h : s₀.Stored) (hp : Phase launch s₀ v c) :
    c.statics.byte = if c.erased then 0xFF#8 else if c.call.isSome then s₀.byte else v := by
  cases hp with
  | called r => rfl
  | erased r =>
    obtain ⟨-, hff, hready⟩ := Flash.eraseSector_spec hl h.ready
    exact (Statics.byte_eq (s := { s₀ with
      flash := (Flash.eraseSector launch FLASH_DATA_START s₀.flash).2 })
      ⟨h.success, h.setting, hready⟩).trans (hff 0)
  | done r => exact (Statics.set_spec hl h v).2

/-! ## Runs -/

/-- The steps that do not read the erased byte, unless it is the old or the new one. -/
def Undisturbed (old v : uint8_t) (c : Curve) (l : Event × (Option uint8_t × List Out)) : Prop :=
  c.erased = true → l.1.Evaluates c.relay → old = 0xFF#8 ∨ v = 0xFF#8

instance (old v : uint8_t) (c : Curve) (l : Event × (Option uint8_t × List Out)) :
    Decidable (Undisturbed old v c l) := inferInstanceAs (Decidable (_ → _ → _))

theorem reads_iff (hl : Flash.Ideal launch) (h : s₀.Stored) (hp : Phase launch s₀ v c)
    {l : Event × (Option uint8_t × List Out)} (hst : Step launch c l c') :
    (∀ b, l.2.1 = some b → b = s₀.byte ∨ b = v) ↔ Undisturbed s₀.byte v c l := by
  have hbyte := phase_byte hl h hp
  obtain ⟨e, o⟩ := l
  cases e with
  | command =>
    have ho : o.1 = none := by
      cases hp <;> cases hst <;> rfl
    refine iff_of_true (fun b hb => ?_) fun _ he => he.elim
    exact absurd (ho.symm.trans hb) (by simp)
  | tick i =>
    obtain ⟨r, -, ho⟩ := tick_step hst
    simp only [Undisturbed, ho, hbyte]
    by_cases he : (Event.tick i).Evaluates c.relay
    · simp only [he, if_true, Option.some.injEq, forall_eq', true_implies]
      cases c.erased with
      | true => simp [eq_comm]
      | false =>
        refine iff_of_true ?_ fun hf => by cases hf
        rw [if_neg Bool.false_ne_true]
        split
        · exact .inl rfl
        · exact .inr rfl
    · simp [he]

/-- **A change of the curve is atomic for the relay** in a run exactly when no tick that evaluates
`GetTripTime` falls between the two commands, or 0xFF is the old or the new byte. -/
theorem change_atomic_iff (hl : Flash.Ideal launch) (c₀ : Curve) (h : c₀.statics.Stored)
    (v : uint8_t) (tr : List ((Event × (Option uint8_t × List Out)) × Curve)) (c : Curve)
    (ht : Lib.Trace (Step launch) (c₀.change v) tr c) :
    (∀ p ∈ tr, ∀ b, p.1.2.1 = some b → b = c₀.statics.byte ∨ b = v) ↔
      Lib.Trace (Lib.Guarded (Undisturbed c₀.statics.byte v) (Step launch)) (c₀.change v) tr c :=
  ht.forall_label_iff (I := Phase launch c₀.statics v)
    (Q := fun l => ∀ b, l.2.1 = some b → b = c₀.statics.byte ∨ b = v) (.called c₀.relay)
    (fun _ _ _ hp hst => phase_step h.success hp hst) fun _ _ _ hp hst => reads_iff hl h hp hst

/-- The statics at power-up over a block with the setting `b`. -/
def constructed (b : uint8_t) : Statics :=
  ((Statics.powerUp (Flash.idle fun _ => b)).construct).getD (.powerUp (Flash.idle fun _ => b))

theorem constructed_stored (b : uint8_t) : (constructed b).Stored :=
  ⟨rfl, BitVec.add_zero FLASH_DATA_START, Flash.not_failed_idle _⟩

/-- No call in progress, and a relay that has seen an overload of 14 A and will arm in the next
tick. -/
def atSetting (b : uint8_t) : Curve where
  statics := constructed b
  call := none
  relay := { Relay.init with
    current := 29549#16, prevCurrent := (29549#16 : uint16_t).hi8, success := true }

/-- The relay arms before the erase, and ticks on between and after the two commands. -/
theorem change_atomic_armed : ∃ tr c,
    Lib.Trace (Step Flash.k70) ((atSetting 2#8).change 1#8) tr c ∧
    tr.map (·.1.2.1) = [some 2#8, none, none, none, none] ∧
    ∀ p ∈ tr, ∀ b, p.1.2.1 = some b → b = (atSetting 2#8).statics.byte ∨ b = 1#8 := by
  obtain ⟨tr, c, h, hp⟩ := Lib.exists_guarded_of_run (Undisturbed (atSetting 2#8).statics.byte 1#8)
    () (step Flash.k70) ((atSetting 2#8).change 1#8)
    [.tick (Relay.quietTick 0#8 none), .command, .tick (Relay.quietTick 0#8 none), .command,
      .tick (Relay.quietTick 0#8 none)]
    (fun tr _ => decide (tr.map (·.1.2.1) = [some 2#8, none, none, none, none]))
    (by decide +kernel)
  have ht := h.mono fun _ _ _ hst => hst.2
  exact ⟨tr, c, ht, of_decide_eq_true hp, (change_atomic_iff Flash.k70_ideal (atSetting 2#8)
    (constructed_stored 2#8) 1#8 tr c ht).2 h⟩

/-- The relay arms between the erase and the program: it reads 0xFF and takes the inverse curve,
3.3 s, while the setting changes from curve 2, 0.4 s, to curve 1, 1.0 s. -/
theorem change_not_atomic : ∃ tr c,
    Lib.run (step Flash.k70) ((atSetting 2#8).change 1#8)
      [.command, .tick (Relay.quietTick 0#8 none)] = .ok (tr, c) ∧
    (atSetting 2#8).statics.byte = 2#8 ∧ tr.map (·.1.2.1) = [none, some 0xFF#8] ∧
    c.relay.time = 215517#32 := by
  obtain ⟨tr, c, h, hp⟩ := Lib.exists_run (step Flash.k70) ((atSetting 2#8).change 1#8)
    [.command, .tick (Relay.quietTick 0#8 none)]
    (fun tr c => decide (tr.map (·.1.2.1) = [none, some 0xFF#8] ∧ c.relay.time = 215517#32))
    (by decide +kernel)
  obtain ⟨hr, ht⟩ := of_decide_eq_true hp
  exact ⟨tr, c, h, by decide, hr, ht⟩

end Trip.Curve
