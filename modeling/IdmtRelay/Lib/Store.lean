import Mathlib.Data.List.Infix
import Mathlib.Data.List.Induction

/-!
# Overwriting stores

A store maps cells to values; an operation leaves a value in each cell it touches (`w op i`). After
a list of operations a cell reads as the value last left in it, or as its initial value (`reads`).

`follows_iff` is about a machine that distorts what it stores by a fixed function `τ` at every
operation: it follows the store along a whole run exactly when every store of the run is a fixed
point of `τ`.
-/

namespace Lib.Store

variable {ι β ω σ : Type _} {w : ω → ι → Option β}

/-- The cells after one operation. -/
def overwrite (w : ω → ι → Option β) (op : ω) (m : ι → β) : ι → β :=
  fun i => (w op i).getD (m i)

/-- A wider operation that fills the cells it adds with what they hold. -/
theorem overwrite_completed {op op' : ω} {m : ι → β}
    (h : ∀ i, w op i = w op' i ∨ w op i = some (m i) ∧ w op' i = none) :
    overwrite w op m = overwrite w op' m := by
  funext i
  unfold overwrite
  rcases h i with h | ⟨h, h'⟩
  · rw [h]
  · rw [h, h']
    rfl

/-- The cells after `ops`: the last operation that touches a cell decides. -/
def reads (w : ω → ι → Option β) (m : ι → β) (ops : List ω) : ι → β :=
  fun i => (ops.reverse.findSome? (w · i)).getD (m i)

@[simp] theorem reads_nil (m : ι → β) : reads w m [] = m := rfl

theorem reads_snoc (m : ι → β) (ops : List ω) (op : ω) :
    reads w m (ops ++ [op]) = overwrite w op (reads w m ops) := by
  funext i
  unfold reads overwrite
  rw [List.reverse_append, List.reverse_singleton, List.singleton_append, List.findSome?_cons]
  cases w op i <;> rfl

/-- The machine after a list of operations. -/
def after (exec : ω → σ → σ) (s : σ) (ops : List ω) : σ := ops.foldl (fun s op => exec op s) s

@[simp] theorem after_nil (exec : ω → σ → σ) (s : σ) : after exec s [] = s := rfl

@[simp] theorem after_snoc (exec : ω → σ → σ) (s : σ) (ops : List ω) (op : ω) :
    after exec s (ops ++ [op]) = exec op (after exec s ops) := by
  simp [after]

theorem after_inv {exec : ω → σ → σ} {Inv : σ → Prop} (hinv : ∀ op s, Inv s → Inv (exec op s))
    {s : σ} (h : Inv s) (ops : List ω) : Inv (after exec s ops) := by
  induction ops using List.reverseRecOn with
  | nil => exact h
  | append_singleton ops op ih =>
    rw [after_snoc]
    exact hinv op _ ih

section
variable {exec : ω → σ → σ} {Inv : σ → Prop} {view : σ → ι → β} {τ : (ι → β) → ι → β}

/-- **A distorting machine follows the store exactly on fixed points of the distortion.** -/
theorem follows_iff (hinv : ∀ op s, Inv s → Inv (exec op s))
    (hview : ∀ op s, Inv s → view (exec op s) = τ (overwrite w op (view s)))
    {s : σ} (h : Inv s) (ops : List ω) :
    (∀ pre, pre <+: ops → view (after exec s pre) = reads w (view s) pre) ↔
      ∀ pre op, pre ++ [op] <+: ops →
        τ (reads w (view s) (pre ++ [op])) = reads w (view s) (pre ++ [op]) := by
  have hstep : ∀ pre op, view (after exec s pre) = reads w (view s) pre →
      view (after exec s (pre ++ [op])) = τ (reads w (view s) (pre ++ [op])) := by
    intro pre op hpre
    rw [after_snoc, hview op _ (after_inv hinv h pre), hpre, reads_snoc]
  constructor
  · intro hall pre op hp
    rw [← hstep pre op (hall pre ((List.prefix_append pre [op]).trans hp)), hall _ hp]
  · intro hfix pre
    induction pre using List.reverseRecOn with
    | nil => intro _; simp
    | append_singleton pre op ih =>
      intro hp
      rw [hstep pre op (ih ((List.prefix_append pre [op]).trans hp)), hfix pre op hp]

end

end Lib.Store
