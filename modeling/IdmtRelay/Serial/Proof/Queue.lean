import IdmtRelay.Lib.Queue
import IdmtRelay.Serial.FIFO

/-!
# The FIFO as a bounded queue

`TFIFO` keeps an 8-bit start, an 8-bit end and a 16-bit count over a ring of 256 cells; the start
and the end are equal both when it is empty and when it is full. `Represents` reads a queue off it.
Every call keeps the relation and gives the result of the queue (`lockstep`), so every sequence of
calls does (`refines_queue`), and what `Put` accepted is what `Get` delivered and what is still
queued (`delivers_in_order`).
-/

namespace Serial.TFIFO

open Lib Lib.Machine

/-- A call of `Put` or `Get`: the result, and the caller's byte afterwards. -/
def call : Queue.Call uint8_t → TFIFO → (Bool × uint8_t) × TFIFO
  | .put data, f => (((f.put data).1, data), (f.put data).2)
  | .get data, f => (((f.get data).1, (f.get data).2.1), (f.get data).2.2)

/-- The FIFO holds the bytes of the queue. -/
def Represents (f : TFIFO) (q : Queue uint8_t FIFO_SIZE) : Prop := f.WF ∧ f.bytes = q.items

theorem represents_empty : zero.Represents (Queue.empty uint8_t FIFO_SIZE) := ⟨zero_wf, rfl⟩

theorem lockstep : Lockstep call Queue.call Represents := by
  intro c f q ⟨hwf, hbytes⟩
  cases c with
  | put data =>
    by_cases h : q.items.length < FIFO_SIZE
    · obtain ⟨hok, happ⟩ := Fifo.put_of_lt (f := ⟨f, hwf⟩) (by rwa [hbytes]) data
      simp only [call, Queue.call, dif_pos h]
      exact ⟨Prod.ext hok rfl, put_wf hwf data, happ.trans (congrArg (· ++ [data]) hbytes)⟩
    · -- start and end are equal here as in the empty FIFO: the count tells them apart
      have hfull : f.bytes.length = FIFO_SIZE := by
        rw [hbytes]
        exact Nat.le_antisymm q.le (Nat.le_of_not_lt h)
      have hput : f.put data = (false, f) :=
        congrArg (Prod.map id Fifo.toTFIFO) (Fifo.put_of_full (f := ⟨f, hwf⟩) hfull data)
      simp only [call, Queue.call, dif_neg h, hput]
      exact ⟨trivial, hwf, hbytes⟩
  | get data =>
    obtain ⟨items, hle⟩ := q
    cases items with
    | nil =>
      have hget : f.get data = (false, data, f) :=
        congrArg (Prod.map id (Prod.map id Fifo.toTFIFO))
          (Fifo.get_of_nil (f := ⟨f, hwf⟩) hbytes data)
      simp only [call, Queue.call, hget]
      exact ⟨trivial, hwf, hbytes⟩
    | cons b bs =>
      obtain ⟨hok, hb, hrest⟩ := Fifo.get_of_cons (f := ⟨f, hwf⟩) hbytes data
      exact ⟨Prod.ext hok hb, get_wf hwf data, hrest⟩

/-- A call that is refused changes neither the FIFO nor the caller's byte. -/
theorem call_refused {c : Queue.Call uint8_t} {f : TFIFO} (h : (call c f).1.1 = false) :
    call c f = ((false, c.var), f) := by
  cases c with
  | put data =>
    simp only [call, put] at h ⊢
    split at h
    · cases h
    · rename_i hfull
      rw [if_neg hfull]
      rfl
  | get data =>
    simp only [call, get] at h ⊢
    split at h
    · cases h
    · rename_i hempty
      rw [if_neg hempty]
      rfl

/-- **`TFIFO` refines a bounded queue.** For every sequence of calls from the zero-initialised FIFO
the results are those of a queue of 256 bytes, the FIFO holds the bytes of that queue, count and
indices agree, and a refused call leaves everything as it is. -/
theorem refines_queue (cs : List (Queue.Call uint8_t)) :
    answers call zero cs = answers Queue.call (Queue.empty uint8_t FIFO_SIZE) cs ∧
    (final call zero cs).bytes = (final Queue.call (Queue.empty uint8_t FIFO_SIZE) cs).items ∧
    (final call zero cs).nbBytes.toNat ≤ FIFO_SIZE ∧
    (final call zero cs).end_.toNat =
      ((final call zero cs).start.toNat + (final call zero cs).nbBytes.toNat) % FIFO_SIZE ∧
    ∀ c, (call c (final call zero cs)).1.1 = false →
      call c (final call zero cs) = ((false, c.var), final call zero cs) := by
  obtain ⟨⟨hle, hend⟩, hbytes⟩ := lockstep.final represents_empty cs
  refine ⟨lockstep.answers_eq represents_empty cs, hbytes, hle, ?_, fun c => call_refused⟩
  rw [hend, BitVec.toNat_add, BitVec.toNat_ofNat]
  exact Nat.add_mod_mod _ _ _

/-- What `Put` accepted is what `Get` delivered and, after it, what is still queued. -/
theorem delivers_in_order (cs : List (Queue.Call uint8_t)) :
    Queue.accepted cs (answers call zero cs) =
      Queue.delivered cs (answers call zero cs) ++ (final call zero cs).bytes := by
  have hbytes := (lockstep.final represents_empty cs).2
  rw [lockstep.answers_eq represents_empty cs, hbytes]
  exact Queue.accepted_eq cs (Queue.empty uint8_t FIFO_SIZE)

end Serial.TFIFO
