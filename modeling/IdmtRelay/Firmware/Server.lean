import IdmtRelay.Firmware.System
import IdmtRelay.Flash.Proof.Store
import IdmtRelay.Serial.Wire

/-!
# The server behind the link

What the firmware is for, seen from SCADA: a server that answers the requests it understands, in
order, each with one packet. Its state is the data block, which a request to set the curve changes:
the new setting is stored in byte 0 and the block then permuted, as the driver does. The frequency
and the current are measured, so a reply may carry what was held at any time while its request was
handled, and of the current the two bytes from different times.
-/

namespace Firmware

open Flash (Block permuted)
open Serial (Msg Link)
open Trip (CMD_DOR CMD_DOR_CURRENT)

/-- What a packet asks for. -/
inductive Ask
  | get
  | set (slope : uint8_t)
  | frequency
  | current
  | nbTimeTripped
  deriving DecidableEq, Repr

/-- The request in a packet, if it is one. -/
def ask (q : Msg) : Option Ask :=
  if q.command = CMD_DOR then
    if q.parameter1 = IDMT then
      if q.parameter2 = 0x01#8 then some .get else some (.set q.parameter3)
    else if q.parameter1 = FREQUENCY then some .frequency
    else if q.parameter1 = CURRENT then some .current
    else if q.parameter1 = NB_TIME_TRIPPED then some .nbTimeTripped
    else none
  else none

/-- The setting a packet sets. -/
def sets (q : Msg) : Option uint8_t :=
  match ask q with
  | some (.set slope) => some slope
  | _ => none

/-- The block after the setting is stored. -/
def store (m : Block) (slope : uint8_t) : Block :=
  permuted fun j => if j.val = 0 then slope else m j

/-- The block after the requests. -/
def blockAfter (m : Block) (qs : List Msg) : Block := (qs.filterMap sets).foldl store m

/-- The reply to a request over the block `m`; the frequency and the current are among `F` and
`C`. -/
inductive Answer (m : Block) (F C : uint16_t → Prop) : Ask → Msg → Prop
  | get : Answer m F C .get ⟨CMD_DOR, 0, 1, m 0⟩
  | set (slope : uint8_t) : Answer m F C (.set slope) ⟨CMD_DOR, 0, 1, slope⟩
  | frequency {f : uint16_t} (hf : F f) : Answer m F C .frequency ⟨CMD_DOR, 1, f.lo8, f.hi8⟩
  | current {x y : uint16_t} (hx : C x) (hy : C y) :
      Answer m F C .current ⟨CMD_DOR_CURRENT, 2, x.lo8, y.hi8⟩
  | nbTimeTripped : Answer m F C .nbTimeTripped ⟨CMD_DOR, 3, m 2, m 3⟩

/-- Packets with the replies to the requests among them. `F k` and `C k` are for the `k`-th
packet. -/
inductive Serves (m : Block) (F C : Nat → uint16_t → Prop) : List Msg → List Msg → Prop
  | nil : Serves m F C [] []
  | silent {qs rs : List Msg} {q : Msg} : Serves m F C qs rs → ask q = none →
      Serves m F C (qs ++ [q]) rs
  | reply {qs rs : List Msg} {q r : Msg} {a : Ask} : Serves m F C qs rs → ask q = some a →
      Answer (blockAfter m qs) (F (qs.length + 1)) (C (qs.length + 1)) a r →
      Serves m F C (qs ++ [q]) (rs ++ [r])

/-! ## The block -/

@[simp] theorem blockAfter_nil (m : Block) : blockAfter m [] = m := rfl

theorem blockAfter_snoc (m : Block) (qs : List Msg) (q : Msg) :
    blockAfter m (qs ++ [q]) = match sets q with
      | some slope => store (blockAfter m qs) slope
      | none => blockAfter m qs := by
  unfold blockAfter
  rw [List.filterMap_append, List.foldl_append]
  cases h : sets q <;> simp [h]

section
variable {m : Block} {F C F' C' : Nat → uint16_t → Prop} {qs rs : List Msg}

/-- One reply for each request. -/
theorem Serves.length_eq (h : Serves m F C qs rs) : rs.length = (qs.filterMap ask).length := by
  induction h with
  | nil => rfl
  | silent _ hq ih => simp [List.filterMap_append, hq, ih]
  | reply _ hq _ ih => simp [List.filterMap_append, hq, ih]

theorem Answer.mono {F C F' C' : uint16_t → Prop} {a : Ask} {r : Msg} (hF : ∀ x, F x → F' x)
    (hC : ∀ x, C x → C' x) (h : Answer m F C a r) : Answer m F' C' a r := by
  cases h with
  | get => exact .get
  | set slope => exact .set slope
  | frequency hf => exact .frequency (hF _ hf)
  | current hx hy => exact .current (hC _ hx) (hC _ hy)
  | nbTimeTripped => exact .nbTimeTripped

theorem Serves.mono (hF : ∀ k x, F k x → F' k x) (hC : ∀ k x, C k x → C' k x)
    (h : Serves m F C qs rs) : Serves m F' C' qs rs := by
  induction h with
  | nil => exact .nil
  | silent _ hq ih => exact .silent ih hq
  | reply _ hq ha ih => exact .reply ih hq (ha.mono (hF _) (hC _))

end

/-! ## What a run shows of the server -/

/-- The packets the main loop got. -/
def requests (tr : Steps) : List Msg := Link.got (Link.outs (linkShare tr))

/-- The packets it passed to `PacketPut`. -/
def replies (tr : Steps) : List Msg := Link.calls (linkShare tr)

/-- What `HandleFrequency` reports. -/
def System.frequency (s : System) : uint16_t := s.device.analog.returnFrequency

/-- `Current.l`. -/
def System.current (s : System) : uint16_t := s.device.relay.current

/-- `x` was held after a step of the run, the `k`-th packet being the last one got. -/
def During (get : System → uint16_t) (tr : Steps) (k : Nat) (x : uint16_t) : Prop :=
  ∃ pre p, pre ++ [p] <+: tr ∧ (requests (pre ++ [p])).length = k ∧ get p.2 = x

theorem During.mono {get : System → uint16_t} {tr tr' : Steps} (h : tr <+: tr') {k : Nat}
    {x : uint16_t} (hd : During get tr k x) : During get tr' k x := by
  obtain ⟨pre, p, hpre, hk, hx⟩ := hd
  exact ⟨pre, p, hpre.trans h, hk, hx⟩

theorem linkShare_snoc (tr : Steps) (e : Event) (a : Act) (s : System) :
    linkShare (tr ++ [((e, a), s)]) = linkShare tr ++ match a with
      | .link e o => [((e, o), s.link)]
      | _ => [] := by
  cases a with
  | link e o => exact Lib.share_snoc_some rfl
  | tick i o => exact (Lib.share_snoc_none rfl).trans (List.append_nil _).symm
  | main => exact (Lib.share_snoc_none rfl).trans (List.append_nil _).symm

theorem requests_snoc (tr : Steps) (e : Event) (a : Act) (s : System) :
    requests (tr ++ [((e, a), s)]) = requests tr ++ match a with
      | .link _ o => Link.got o
      | _ => [] := by
  unfold requests
  rw [linkShare_snoc]
  cases a with
  | link e o =>
    rw [Link.outs_snoc]
    exact List.filterMap_append
  | tick i o => rw [List.append_nil, List.append_nil]
  | main => rw [List.append_nil, List.append_nil]

theorem replies_snoc (tr : Steps) (e : Event) (a : Act) (s : System) :
    replies (tr ++ [((e, a), s)]) = replies tr ++ match a with
      | .link (.packetPut m) _ => [m]
      | _ => [] := by
  unfold replies
  rw [linkShare_snoc]
  cases a with
  | link e o =>
    rw [Link.calls_snoc]
    cases e <;> rfl
  | tick i o => rw [List.append_nil, List.append_nil]
  | main => rw [List.append_nil, List.append_nil]

/-- What is held after the last step. -/
theorem during_last (get : System → uint16_t) (tr : Steps) (p : (Event × Act) × System) :
    During get (tr ++ [p]) (requests (tr ++ [p])).length (get p.2) :=
  ⟨tr, p, List.prefix_rfl, rfl, rfl⟩

end Firmware
