import Mathlib.Data.List.Basic

/-!
# Programs that print

`Prints p res text` says how a program ends and what it prints: the text comes behind what was printed
before, and a fault does not take back what has been printed.
-/

namespace AtomicPredicate.Lib

variable {ε α β : Type}

abbrev PrintM (ε : Type) := ExceptT ε (StateM (List Char))

def puts (text : List Char) : PrintM ε Unit := modify (· ++ text)

/-- A step that prints nothing. -/
def silently (res : Except ε α) : PrintM ε α := ExceptT.mk (pure res)

def Prints (p : PrintM ε α) (res : Except ε α) (text : List Char) : Prop :=
  ∀ out, p.run.run out = (res, out ++ text)

namespace Prints

variable {p : PrintM ε α} {q : α → PrintM ε β} {a : α} {e : ε} {res : Except ε β}
  {text text' : List Char}

theorem pure (a : α) : Prints (Pure.pure a : PrintM ε α) (.ok a) [] := by
  intro out
  rw [List.append_nil]
  rfl

theorem throw (e : ε) : Prints (MonadExcept.throw e : PrintM ε α) (.error e) [] := by
  intro out
  rw [List.append_nil]
  rfl

theorem silently (res : Except ε α) : Prints (Lib.silently res) res [] := by
  intro out
  rw [List.append_nil]
  rfl

theorem puts (text : List Char) : Prints (Lib.puts text : PrintM ε Unit) (.ok ()) text :=
  fun _ => rfl

theorem bind (hp : Prints p (.ok a) text) (hq : Prints (q a) res text') :
    Prints (p >>= q) res (text ++ text') := by
  intro out
  have hrun : (p >>= q).run.run out = (q a).run.run (out ++ text) := by
    simp only [ExceptT.run_bind, StateT.run_bind, hp out]
    rfl
  rw [hrun, hq, List.append_assoc]

theorem bind_error (hp : Prints p (.error e) text) :
    Prints (p >>= q) (.error e) text := by
  intro out
  simp only [ExceptT.run_bind, StateT.run_bind, hp out]
  rfl

theorem bind_pure {b : α → β} (hp : Prints p (.ok a) text) :
    Prints (p >>= fun a => Pure.pure (b a)) (.ok (b a)) text := by
  have h := hp.bind (q := fun a => Pure.pure (b a)) (pure (b a))
  rwa [List.append_nil] at h

end Prints

end AtomicPredicate.Lib
