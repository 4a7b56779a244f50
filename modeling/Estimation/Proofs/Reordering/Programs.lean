import Estimation.Proofs.Reordering.Compilation
import Estimation.Proofs.Reordering.Runs

/-!
A pipe means the call. A program does not change its meaning if some of its pipes are written as calls with
what is piped as their first argument.
-/

namespace Estimation

open List

namespace Evaluation

/-- What programs leave is the same but for the order in which closures in it captured. -/
structure OutcomesReordered (o o' : Outcome) : Prop where
  result : ValueOf.Alike Reordered o.result o'.result
  bindings : Forall₂ (EntryAlike (ValueOf.Alike Reordered)) o.bindings o'.bindings
  exports : Forall₂ (EntryAlike (ValueOf.Alike Reordered)) o.exports o'.exports
  profile : o.profile = o'.profile

theorem runProgram_matched {run : Run} {cs ds : List Code} {c d : Option Code}
    (hs : Code.StatementsMatched 0 [] [] cs ds) (h : Option.Rel (Code.Matched cs.length [] []) c d)
    (bindings : List TopBinding) (span : Span) :
    Ends .same (fun o o' m m' => OutcomesReordered o o' ∧ m.random = m'.random)
      (runProgram run (.program cs c bindings span) (.start run.environment))
      (runProgram run (.program ds d bindings span) (.start run.environment)) := by
  have hcall : CallersAlike .same Reordered (apply run run.limits.callDepth)
      (apply run run.limits.callDepth) := callers_reordered _
  have hctx : ContextsMatched Reordered #[] #[] [] [] .top .top := ⟨rfl, rfl, rfl, rfl, .nil⟩
  have heval : Simulates .same (Filled Reordered #[] #[] 0) (ValueOf.Alike Reordered)
      (Above Reordered #[] #[]) (topLevel run (.program cs c bindings span))
      (topLevel run (.program ds d bindings span)) := by
    simp only [topLevel, eval]
    rw [← Nat.zero_add cs.length] at h
    exact (evalRecorded_matched hcall hctx hs).bind fun _ _ _ =>
      (evalResult_matched hcall hctx h).mono (fun _ _ h => h) fun _ _ h => h.above
  have hrun : Simulates .same (Filled Reordered #[] #[] 0) OutcomesReordered (Above Reordered #[] #[])
      (runProgram run (.program cs c bindings span)) (runProgram run (.program ds d bindings span)) :=
    heval.bind fun v w hv => (bindingValues_alike bindings .nil .nil).bind fun x y hxy =>
      takeProfile_alike.bind fun _ _ hp => .pure ⟨hv, hxy.1, hxy.2, hp⟩
  refine (hrun.mono (fun _ _ h => h) fun m m' hm => ?_) _ _ ⟨[], [], rfl, .nil, rfl, rfl, rfl, rfl, rfl⟩
  obtain ⟨us, us', -, hm⟩ := hm
  exact hm.random

end Evaluation

theorem Compilation.topBindings_unpiped {ss ts : List (Syntax.Statement Syntax.Expr)}
    (h : Forall₂ (Syntax.StatementAlong Syntax.Expr.Unpiped) ss ts) (n : Nat) (bs : List TopBinding) :
    topBindings n bs ss = topBindings n bs ts := by
  induction h generalizing n bs with
  | nil => rfl
  | cons h _ ih =>
    obtain ⟨_⟩ := h
    exact ih _ _

namespace Syntax.Program.Unpiped

open Evaluation Syntax.Expr

variable {p q : Program}

/-- Both programs compile or neither does, and then both end alike, whatever they are run with. -/
theorem runProgram_alike (h : p.Unpiped q) (externals : Bindings Value) :
    ((∃ c, compile externals p = .ok c) ↔ ∃ d, compile externals q = .ok d) ∧
      ∀ c d, compile externals p = .ok c → compile externals q = .ok d → ∀ run : Run,
        Ends .same (fun o o' m m' => OutcomesReordered o o' ∧ m.random = m'.random)
          (runProgram run c (.start run.environment)) (runProgram run d (.start run.environment)) := by
  refine ⟨h.compile_iff externals, fun c d hc hd run => ?_⟩
  have hsnug := compile_snug hc
  have hsnug' := compile_snug hd
  obtain ⟨cs, r, hcs, hr, rfl⟩ := compile_lowered hc
  obtain ⟨ds, r', hds, hr', rfl⟩ := compile_lowered hd
  have hpieces : ∀ x ∈ cs ++ r.toList, x.Snug := fun _ => hsnug.piece
  have hpieces' : ∀ x ∈ ds ++ r'.toList, x.Snug := fun _ => hsnug'.piece
  rw [forall_mem_append] at hpieces hpieces'
  have hs : Code.StatementsMatched 0 [] [] cs ds :=
    statements_matched h.statements nodup_nil nodup_nil hcs hds hpieces.1 hpieces'.1
  have hresult : Option.Rel (Code.Matched cs.length [] []) r r' := by
    rw [← (Piece.statements_together h.statements []).1] at hr'
    have hrel := h.result
    generalize p.result = e at hrel hr
    generalize q.result = f at hrel hr'
    cases hrel with
    | none =>
      rw [LoweredOption] at hr hr'
      subst hr hr'
      exact .none
    | some hef =>
      rw [LoweredOption] at hr hr'
      obtain ⟨c, hlowered, rfl⟩ := hr
      obtain ⟨d, hlowered', rfl⟩ := hr'
      have hmatched := hef.matched nodup_nil nodup_nil hlowered hlowered' (hpieces.2 _ (.head _)) (hpieces'.2 _ (.head _))
      rw [length_map, hcs.length_eq] at hmatched
      exact .some hmatched
  rw [← Compilation.topBindings_unpiped h.statements, ← h.span]
  exact runProgram_matched hs hresult _ _

/-- The inner one of two functions captures `a` and `b`, in the order in which `body` finds them. -/
def nesting (body : Expr) : Program where
  imports := []
  statements := [
    ⟨"a", default, .string "a" default, false, default⟩,
    ⟨"b", default, .lambda (some "b") [⟨"x", default, none⟩] (.identifier "x" default) default, false, default⟩,
    ⟨"f", default, .lambda (some "f") [⟨"y", default, none⟩] (.lambda none [] body default) default, true,
      default⟩]
  result := some (.call (.call (.identifier "f" default) [.string "y" default] default) [] default)
  span := default

theorem runProgram_alike_nesting :
    ∃ p q c d, p = nesting (.pipe (.identifier "a" default) (.identifier "b" default) [] default) ∧
      q = nesting (.call (.identifier "b" default) [.identifier "a" default] default) ∧ p.Unpiped q ∧
      compile [] p = .ok c ∧ compile [] q = .ok d ∧ ∀ run : Run,
        Ends .same (fun o o' m m' => OutcomesReordered o o' ∧ m.random = m'.random)
          (runProgram run c (.start run.environment)) (runProgram run d (.start run.environment)) := by
  have h : (nesting (.pipe (.identifier "a" default) (.identifier "b" default) [] default)).Unpiped
      (nesting (.call (.identifier "b" default) [.identifier "a" default] default)) := by
    refine ⟨rfl, ?_, ?_, rfl⟩
    · refine .cons ⟨.string _ _⟩ (.cons ⟨.lambda _ _ (.cons ⟨.none⟩ .nil) (.identifier _ _)⟩ (.cons ⟨?_⟩ .nil))
      refine .lambda _ _ (.cons ⟨.none⟩ .nil) (.lambda _ _ .nil ?_)
      exact .called _ (.identifier _ _) (.identifier _ _) .nil
    · exact .some (.call _ (.call _ (.identifier _ _) (.cons (.string _ _) .nil)) .nil)
  exact ⟨_, _, _, _, rfl, rfl, h, rfl, rfl, (runProgram_alike h []).2 _ _ rfl rfl⟩

end Syntax.Program.Unpiped

end Estimation
