import Linkage.Visit.Chain
import Linkage.Proofs.Run

/-!
What a chain of any length comes to: the sink behind it, whether some stage reports references, and what all the
stages together do with a reference.
-/
namespace Linkage
namespace Stage

variable {σ ε : Type}

def reports : Stage σ ε → Bool
  | .forward => false
  | .dependency _ => true

/-- What the stage does with a reference before it passes the instruction on. -/
def report (access : Access) : Stage σ ε → Visit σ ε Unit
  | .forward => pure ()
  | .dependency receiver => receiver access

end Stage

/-- Gives the sink an event whose answer does not matter. -/
def Sink.tell {σ ε : Type} (sink : Sink σ ε) (event : Event) : Visit σ ε Unit := do
  let _ ← sink event

theorem Sink.tell_apply {σ ε : Type} (sink : Sink σ ε) (event : Event) (s : σ) :
    sink.tell event s = ((sink event s).1.map fun _ => (), (sink event s).2) := by
  rcases h : sink event s with ⟨e | wanted, s'⟩ <;> simp [Sink.tell, Run.bind_apply, h, Except.map]

namespace Chain

variable {σ ε : Type} (chain : Chain σ ε)

/-- Some stage reports references, and so keeps every class and method open. -/
def observed : Bool := chain.stages.any Stage.reports

/-- Hands a reference to one stage after the other. -/
def report (access : Access) : Visit σ ε Unit := chain.stages.forM (Stage.report access)

theorem declare_eq {header : Header} (h : chain.observed = true → header.name ≠ "") :
    chain.declare (some header) = (do
      let wanted ← chain.sink (.declare (some header))
      return if wanted || chain.observed then some ⟨header.name, wanted⟩ else none) := by
  have hgo (stages : List (Stage σ ε)) (hn : stages.any Stage.reports = true → header.name ≠ "") :
      declare.go chain (some header) stages = (do
        let wanted ← chain.sink (.declare (some header))
        return if wanted || stages.any Stage.reports then some ⟨header.name, wanted⟩ else none) := by
    induction stages with
    | nil =>
      rw [declare.go]
      refine bind_congr fun wanted => ?_
      cases wanted <;> rfl
    | cons stage rest ih =>
      cases stage with
      | forward => simpa [declare.go, Stage.reports] using ih hn
      | dependency receiver =>
        have hnamed : declare.name (some header) ≠ "" := hn rfl
        simp only [declare.go, hnamed, if_false, pure_bind, ih fun _ => hnamed, bind_assoc]
        refine bind_congr fun wanted => ?_
        cases wanted <;> simp [Stage.reports, declare.name]
        split <;> simp
  exact hgo chain.stages h

/-- Whether the sink wants the body of a method; one of a class that it declined it is not asked about. -/
def wants (c : OpenClass) (decl : MethodDecl) : Visit σ ε Bool :=
  if c.reaches then chain.sink (.method decl) else pure false

theorem method_eq (c : OpenClass) (decl : MethodDecl) :
    chain.method c decl = (do
      let wanted ← chain.wants c decl
      return if wanted || chain.observed then some ⟨⟨c.name, decl.name⟩, wanted⟩ else none) := by
  have hgo : ∀ stages : List (Stage σ ε), method.go chain c decl stages = (do
      let wanted ← chain.wants c decl
      return if wanted || stages.any Stage.reports then some ⟨⟨c.name, decl.name⟩, wanted⟩ else none) := by
    intro stages
    induction stages with
    | nil =>
      rw [method.go, wants]
      cases hc : c.reaches with
      | false => simp
      | true =>
        simp only [if_true]
        refine bind_congr fun wanted => ?_
        cases wanted <;> rfl
    | cons stage rest ih =>
      cases stage with
      | forward => simpa [method.go, Stage.reports] using ih
      | dependency receiver =>
        simp only [method.go, ih, bind_assoc, pure_bind]
        refine bind_congr fun wanted => ?_
        cases wanted <;> simp [Stage.reports, method.source]
        split <;> simp
  exact hgo chain.stages

theorem member_eq (c : OpenClass) (event : MemberEvent) :
    chain.member c event = if c.reaches then chain.sink.tell (.member event) else pure () := rfl

theorem code_eq (m : OpenMethod) (event : CodeEvent) :
    chain.code m event = (do
      if let some access := event.access? m.source then chain.report access
      if m.reaches then chain.sink.tell (.code event)) := by
  have hgo : ∀ stages : List (Stage σ ε), code.go chain m event stages = (do
      if let some access := event.access? m.source then stages.forM (Stage.report access)
      if m.reaches then chain.sink.tell (.code event)) := by
    intro stages
    induction stages with
    | nil =>
      rw [code.go]
      cases event.access? m.source <;> cases m.reaches <;> simp [Sink.tell]
    | cons stage rest ih =>
      cases stage with
      | forward => simpa [code.go, Stage.report] using ih
      | dependency receiver =>
        rw [code.go, ih]
        cases event.access? m.source <;> simp [Stage.report]
  exact hgo chain.stages

end Chain
end Linkage
