import IdmtRelay.Trip.Report

/-!
# Which currents are reported

A reply is put together from the current at the first read and that at the second (`reply_eq`). It
is one of the two exactly if they agree in a byte (`reported_iff`); a tick that changes both bytes
between the reads tears it, which the critical section would rule out (`reported_critical`).
-/

namespace Trip.Observed

open Report (Event)

/-- The call is between its two reads and this is the second one. -/
def completes : Call → Event → Bool
  | .lo _, .readHi => true
  | .hi _, .readLo => true
  | _, _ => false

/-- A call ends with one of the two bytes as it was at the first read. -/
def Together (w : Observed) (l : Label) : Prop :=
  completes w.report.call l.1 = true →
    w.seen.lo8 = w.current.lo8 ∨ w.seen.hi8 = w.current.hi8

instance (w : Observed) (l : Label) : Decidable (Together w l) :=
  inferInstanceAs (Decidable (_ → _ ∨ _))

/-! ## The whole handler -/

theorem uint16union_eq_iff {a b : uint8_t} {x : uint16_t} :
    uint16union a b = x ↔ a = x.lo8 ∧ b = x.hi8 := Lib.Word.join_eq_iff

theorem uint16union_self (x : uint16_t) : uint16union x.lo8 x.hi8 = x :=
  uint16union_eq_iff.2 ⟨rfl, rfl⟩

/-- A byte of each of two values makes one of them exactly if they agree in a byte. -/
theorem uint16union_mem_iff (x y : uint16_t) :
    (uint16union x.lo8 y.hi8 = x ∨ uint16union x.lo8 y.hi8 = y) ↔
      (x.lo8 = y.lo8 ∨ x.hi8 = y.hi8) := by
  rw [uint16union_eq_iff, uint16union_eq_iff]
  refine ⟨fun h => ?_, fun h => ?_⟩
  · rcases h with ⟨-, hhi⟩ | ⟨hlo, -⟩
    · exact .inr hhi.symm
    · exact .inl hlo
  · rcases h with hlo | hhi
    · exact .inr ⟨hlo, rfl⟩
    · exact .inl ⟨rfl, hhi.symm⟩

/-- In one piece the handler reports the current. -/
theorem reported_handleCurrent (r : Relay) : reported (handleCurrent r) = r.current :=
  uint16union_self r.current

/-- Without a tick in between, the two reads in either order are the handler. -/
theorem reads_handleCurrent (r : Relay) :
    (∃ c, Report.step .readLo ⟨r, .idle⟩ = .ok ((none, []), c) ∧
      Report.step .readHi c = .ok ((some (handleCurrent r), []), ⟨r, .idle⟩)) ∧
    ∃ c, Report.step .readHi ⟨r, .idle⟩ = .ok ((none, []), c) ∧
      Report.step .readLo c = .ok ((some (handleCurrent r), []), ⟨r, .idle⟩) :=
  ⟨⟨_, rfl, rfl⟩, ⟨_, rfl, rfl⟩⟩

/-! ## One step -/

variable {w w' : Observed} {e : Event} {o : Option Serial.Msg × List Out}

theorem of_step (h : Step w (e, o) w') : w.report.step e = .ok (o, w'.report) ∧
    w'.held = w.held ++ [w'.current] ∧
    w'.seen = if w.report.call = .idle then w.current else w.seen := by
  unfold Step Lib.StepOf step at h
  cases hc : w.report.step e with
  | error => simp [hc, bind, Except.bind] at h
  | ok p =>
    simp only [hc, bind, Except.bind, pure, Except.pure] at h
    cases h
    exact ⟨rfl, rfl, rfl⟩

/-- What one step does: a tick leaves the call as it is, a read leaves the relay as it is. -/
inductive Moves (w w' : Observed) : Event → Option Serial.Msg → Prop
  | tick {i : TickIn} (hcall : w'.report.call = w.report.call) : Moves w w' (.tick i) none
  | first {e : Event} (hidle : w.report.call = .idle) (hcur : w'.current = w.current)
      (hcall : w'.report.call = .lo w.current.lo8 ∨ w'.report.call = .hi w.current.hi8) :
      Moves w w' e none
  | second {e : Event} {m : Serial.Msg} (hc : completes w.report.call e = true)
      (hidle : w'.report.call = .idle) (hcur : w'.current = w.current)
      (hm : (∃ Lo, w.report.call = .lo Lo ∧ reported m = uint16union Lo w.current.hi8) ∨
        ∃ Hi, w.report.call = .hi Hi ∧ reported m = uint16union w.current.lo8 Hi) :
      Moves w w' e (some m)

theorem step_moves (h : Step w (e, o) w') : Moves w w' e o.1 := by
  obtain ⟨hst, -, -⟩ := of_step h
  obtain ⟨⟨r, call⟩, held, seen⟩ := w
  obtain ⟨⟨r', call'⟩, held', seen'⟩ := w'
  cases e with
  | tick i =>
    simp only [Report.step] at hst
    split at hst
    · cases hst
    · cases hst
      exact .tick rfl
  | readLo =>
    cases call with
    | idle =>
      cases hst
      exact .first rfl rfl (.inl rfl)
    | lo Lo => cases hst
    | hi Hi =>
      cases hst
      exact .second rfl rfl rfl (.inr ⟨Hi, rfl, rfl⟩)
  | readHi =>
    cases call with
    | idle =>
      cases hst
      exact .first rfl rfl (.inr rfl)
    | lo Lo =>
      cases hst
      exact .second rfl rfl rfl (.inl ⟨Lo, rfl, rfl⟩)
    | hi Hi => cases hst

/-! ## What a call has read -/

/-- The byte the call has read is one of `x`. -/
def ReadFrom (x : uint16_t) : Call → Prop
  | .idle => True
  | .lo Lo => Lo = x.lo8
  | .hi Hi => Hi = x.hi8

structure Tracked (w : Observed) : Prop where
  current : w.current ∈ w.held
  seen : w.seen ∈ w.held
  call : ReadFrom w.seen w.report.call

theorem tracked_start (r : Relay) : Tracked (start r) :=
  ⟨List.mem_singleton_self _, List.mem_singleton_self _, trivial⟩

theorem mem_held_step (h : Step w (e, o) w') {x : uint16_t} (hx : x ∈ w.held) : x ∈ w'.held := by
  rw [(of_step h).2.1]
  exact List.mem_append_left _ hx

theorem readFrom_step (hr : ReadFrom w.seen w.report.call) (h : Step w (e, o) w') :
    ReadFrom w'.seen w'.report.call := by
  obtain ⟨-, -, hseen⟩ := of_step h
  have hmoves := step_moves h
  generalize o.1 = p at hmoves
  cases hmoves with
  | tick hcall =>
    rw [hcall, hseen]
    split
    · rename_i hidle
      rw [hidle]
      trivial
    · exact hr
  | first hidle hcur hcall =>
    rw [hseen, if_pos hidle]
    rcases hcall with hcall | hcall
    · rw [hcall]
      rfl
    · rw [hcall]
      rfl
  | second hc hidle hcur hm =>
    rw [hidle]
    trivial

theorem tracked_step (ht : Tracked w) (h : Step w (e, o) w') : Tracked w' := by
  obtain ⟨-, hheld, hseen⟩ := of_step h
  refine ⟨?_, ?_, readFrom_step ht.call h⟩
  · rw [hheld]
    exact List.mem_append_right _ (List.mem_singleton_self _)
  · rw [hseen]
    split
    · exact mem_held_step h ht.current
    · exact mem_held_step h ht.seen

/-! ## A reply -/

/-- A reply is one byte of the current at the first read and the other byte of the current at the
second, which is the current still. -/
theorem reply_eq (ht : Tracked w) (h : Step w (e, o) w') {m : Serial.Msg} (hm : o.1 = some m) :
    completes w.report.call e = true ∧ w'.seen = w.seen ∧ w'.current = w.current ∧
      (reported m = uint16union w.seen.lo8 w.current.hi8 ∨
        reported m = uint16union w.current.lo8 w.seen.hi8) := by
  obtain ⟨-, -, hseen⟩ := of_step h
  have hmoves := step_moves h
  rw [hm] at hmoves
  cases hmoves with
  | second hc hidle hcur hm =>
    have hread := ht.call
    rcases hm with ⟨Lo, hcall, hm⟩ | ⟨Hi, hcall, hm⟩
    · rw [hcall] at hread
      rw [hcall, if_neg (by simp)] at hseen
      exact ⟨hc, hseen, hcur, .inl (by rw [hm, hread])⟩
    · rw [hcall] at hread
      rw [hcall, if_neg (by simp)] at hseen
      exact ⟨hc, hseen, hcur, .inr (by rw [hm, hread])⟩

/-- The second read puts out a reply. -/
theorem exists_reply (h : Step w (e, o) w') (hc : completes w.report.call e = true) :
    ∃ m, o.1 = some m := by
  have hmoves := step_moves h
  generalize o.1 = p at hmoves
  cases hmoves with
  | tick hcall => simp [completes] at hc
  | first hidle hcur hcall => simp [hidle, completes] at hc
  | second => exact ⟨_, rfl⟩

/-- A reply is the current at one of its two reads exactly if the two agree in a byte. -/
theorem reported_eq_iff (ht : Tracked w) (h : Step w (e, o) w') {m : Serial.Msg}
    (hm : o.1 = some m) : (reported m = w'.seen ∨ reported m = w'.current) ↔
      (w.seen.lo8 = w.current.lo8 ∨ w.seen.hi8 = w.current.hi8) := by
  obtain ⟨-, hseen, hcur, hm | hm⟩ := reply_eq ht h hm
  · rw [hm, hseen, hcur]
    exact uint16union_mem_iff _ _
  · rw [hm, hseen, hcur, or_comm, uint16union_mem_iff, eq_comm, eq_comm (a := w.current.hi8)]

/-! ## Runs -/

/-- The states and what they have held are those of the run. -/
theorem held_eq (r : Relay) (tr : Steps) (w : Observed) (h : Lib.Trace Step (start r) tr w) :
    w.held = r.current :: tr.map (fun p => p.2.current) := by
  induction h with
  | nil => rfl
  | snoc _ hst ih =>
    rw [(of_step hst).2.1, ih, List.map_append]
    rfl

/-- Every reply of a run is the current at one of its two reads exactly if no call ends torn. -/
theorem reported_iff (r : Relay) (tr : Steps) (w : Observed)
    (h : Lib.Trace Step (start r) tr w) :
    (∀ p ∈ tr, ∀ m, p.1.2.1 = some m → reported m = p.2.seen ∨ reported m = p.2.current) ↔
      Lib.Trace (Lib.Guarded Together Step) (start r) tr w := by
  refine h.forall_step_iff
    (Q := fun p => ∀ m, p.1.2.1 = some m → reported m = p.2.seen ∨ reported m = p.2.current)
    (tracked_start r) (fun s l s' => tracked_step) ?_
  intro w ⟨e, o⟩ w' ht hst
  refine ⟨fun hall hc => ?_, fun htog m hm => ?_⟩
  · obtain ⟨m, hm⟩ := exists_reply hst hc
    exact (reported_eq_iff ht hst hm).1 (hall m hm)
  · exact (reported_eq_iff ht hst hm).2 (htog (reply_eq ht hst hm).1)

/-- **A reported current was held** in every run in which no call ends torn. -/
theorem reported_held (r : Relay) (tr : Steps) (w : Observed)
    (h : Lib.Trace (Lib.Guarded Together Step) (start r) tr w) :
    ∀ p ∈ tr, ∀ m, p.1.2.1 = some m → reported m ∈ p.2.held := by
  refine h.forall_steps Tracked (Q := fun p => ∀ m, p.1.2.1 = some m → reported m ∈ p.2.held)
    (tracked_start r) ?_
  intro w ⟨e, o⟩ w' ht ⟨htog, hst⟩
  have ht' := tracked_step ht hst
  refine ⟨ht', ?_⟩
  intro m hm
  rcases (reported_eq_iff ht hst hm).2 (htog (reply_eq ht hst hm).1) with hr | hr
  · rw [hr]
    exact ht'.seen
  · rw [hr]
    exact ht'.current

/-- A current that falls from 29549 to 29456 between the reads, in its low byte only. -/
theorem reported_held_29549 : ∃ (tr : Steps) (w : Observed), w.current = 29456#16 ∧
    (∃ p ∈ tr, p.1.2.1.map reported = some 29549#16) ∧
    ∀ p ∈ tr, ∀ m, p.1.2.1 = some m → reported m ∈ p.2.held := by
  obtain ⟨tr, w, h, hp⟩ := Lib.exists_guarded_of_run Together () step (start .init)
    ((Relay.windows 2#8 [29549#16, 29456#16]).dropLast.map .tick ++
      [.readLo, .tick (Relay.quietTick 2#8 (some 29456#16)), .readHi])
    (fun tr w => decide (w.current = 29456#16 ∧
      ∃ p ∈ tr, p.1.2.1.map reported = some 29549#16)) (by decide +kernel)
  obtain ⟨hcur, hrep⟩ := of_decide_eq_true hp
  exact ⟨tr, w, hcur, hrep, reported_held .init tr w h⟩

/-- A current that falls from 0x736D to 0x2C08 between the reads is reported as 0x2C6D. -/
theorem reported_torn : ∃ (tr : Steps) (w : Observed),
    Lib.run step (start .init) ((Relay.windows 2#8 [29549#16, 11272#16]).dropLast.map .tick ++
      [.readLo, .tick (Relay.quietTick 2#8 (some 11272#16)), .readHi]) = .ok (tr, w) ∧
    ∃ p ∈ tr, p.1.2.1.map reported = some 0x2C6D#16 ∧ 0x2C6D#16 ∉ w.held := by
  obtain ⟨tr, w, h, hp⟩ := Lib.exists_run step (start .init)
    ((Relay.windows 2#8 [29549#16, 11272#16]).dropLast.map .tick ++
      [.readLo, .tick (Relay.quietTick 2#8 (some 11272#16)), .readHi])
    (fun tr w => decide (∃ p ∈ tr, p.1.2.1.map reported = some 0x2C6D#16 ∧
      0x2C6D#16 ∉ w.held)) (by decide +kernel)
  exact ⟨tr, w, h, of_decide_eq_true hp⟩

/-! ## With the critical section -/

/-- No tick runs while a call is in progress. -/
def Critical (w : Observed) (l : Label) : Prop :=
  w.report.call ≠ .idle → ∀ i, l.1 ≠ .tick i

/-- The current has not changed since the first read of the call in progress. -/
def Fresh (w : Observed) : Prop := w.report.call ≠ .idle → w.seen = w.current

theorem fresh_of_step (hc : Critical w (e, o)) (h : Step w (e, o) w') : Fresh w' := by
  obtain ⟨-, -, hseen⟩ := of_step h
  have hmoves := step_moves h
  generalize o.1 = p at hmoves
  intro hbusy
  cases hmoves with
  | tick hcall =>
    rw [hcall] at hbusy
    exact absurd rfl (hc hbusy _)
  | first hidle hcur hcall => rw [hseen, if_pos hidle, hcur]
  | second hcomp hidle hcur hm => exact absurd hidle hbusy

/-- If the handler ran in the critical section that its comment names, every reply would be the
current. -/
theorem reported_critical (r : Relay) (tr : Steps) (w : Observed)
    (h : Lib.Trace (Lib.Guarded Critical Step) (start r) tr w) :
    ∀ p ∈ tr, ∀ m, p.1.2.1 = some m → reported m = p.2.current := by
  refine h.forall_steps (fun w => Tracked w ∧ Fresh w)
    (Q := fun p => ∀ m, p.1.2.1 = some m → reported m = p.2.current)
    ⟨tracked_start r, fun hbusy => absurd rfl hbusy⟩ ?_
  intro w ⟨e, o⟩ w' ⟨ht, hf⟩ ⟨hc, hst⟩
  refine ⟨⟨tracked_step ht hst, fresh_of_step hc hst⟩, ?_⟩
  intro m hm
  obtain ⟨hcomp, -, hcur, hr⟩ := reply_eq ht hst hm
  have hbusy : w.report.call ≠ .idle := by
    intro hidle
    simp [hidle, completes] at hcomp
  rw [hf hbusy] at hr
  rw [hcur]
  rcases hr with hr | hr
  · exact hr.trans (uint16union_self _)
  · exact hr.trans (uint16union_self _)

end Trip.Observed
