import Linkage.Proofs.Encoding
import Linkage.Proofs.Loading
import Linkage.Proofs.Recording

/-!
What a replay is to tell of a planned class: its declarations, and of each body the handlers and the instructions.
Labels and line numbers, which stand between them and mark an offset, are left out. A replay tells just that.
-/
namespace Linkage

open Assembler

variable {v : Vocabulary} {a : Assembler} {p : Plan}

/-- The event marks an offset in the code. -/
def Event.isMark : Event → Bool
  | .code e => e.isMark
  | _ => false

namespace MethodPlan

/-- The body without its marks and its end. -/
def body (pool : Pool) (d : MethodPlan) : Except PoolFault (List CodeEvent) :=
  if d.isAbstract then return []
  else do
    let told ← d.told.mapM (Told.resolve pool)
    let handlers := d.handlers.map fun (start, stop, target, type) => .tryCatch start stop target type
    return .start :: (handlers ++ told ++ [.maxs d.maxStack d.maxLocals])

def events (pool : Pool) (d : MethodPlan) : Except PoolFault (List Event) := do
  return .method ⟨d.access, d.name, d.descriptor, "", []⟩ :: ((← d.body pool).map .code ++ [.code .finish])

end MethodPlan

/-- The declarations and instructions of a class in the order in which they are told. -/
def Plan.events (p : Plan) (pool : Pool) : Except PoolFault (List Event) := do
  let source := if p.source = "" then [] else [.source p.source]
  let fields := p.fields.map fun f => .field ⟨f.access, f.name, f.descriptor, "", .null⟩
  let methods ← p.methods.mapM (MethodPlan.events pool)
  return .declare (some p.header) :: ((source ++ fields).map .member ++ methods.flatten ++ [.member .finish])

/-- The cues are events, which are as planned but for the marks between them. -/
def Tells (cues : List Cue) (planned : List Event) : Prop :=
  ∃ events : List Event, cues.map Cue.event? = events.map some ∧ events.filter (!·.isMark) = planned

namespace Tells

theorem append {first second : List Cue} {planned planned' : List Event} (h : Tells first planned)
    (h' : Tells second planned') : Tells (first ++ second) (planned ++ planned') := by
  obtain ⟨events, hcues, rfl⟩ := h
  obtain ⟨events', hcues', rfl⟩ := h'
  exact ⟨events ++ events', by rw [List.map_append, hcues, hcues', List.map_append], List.filter_append _ _⟩

theorem event {place : Option (String × String)} {e : Event} (h : e.isMark = false) : Tells [.event place e] [e] :=
  ⟨[e], rfl, by simp [h]⟩

theorem members (events : List MemberEvent) :
    Tells (events.map fun e => .event none (.member e)) (events.map .member) :=
  ⟨events.map .member, by simp [Cue.event?, Function.comp_def],
    by simp [List.filter_map, Event.isMark, Function.comp_def]⟩

theorem code {pool : Pool} {decl : MethodDecl} {code : Code} {planned : List CodeEvent}
    (hfault : (code.body pool).fault = none) (hevents : (code.body pool).events.filter (!·.isMark) = planned) :
    Tells (code.cues pool decl) (planned.map .code) := by
  refine ⟨(code.body pool).events.map .code, ?_, ?_⟩
  · simp [Code.cues, hfault, Cue.event?, Function.comp_def]
  · rw [← hevents, List.filter_map]
    rfl

end Tells

theorem MethodPlan.Fits.tryCatch {e : MethodPlan} (h : e.Fits) (hconcrete : e.isAbstract = false) (bytes : Bytes) :
    (e.code bytes).handlers.map (fun h => CodeEvent.tryCatch h.start h.stop h.handler h.type) =
      e.handlers.map fun (start, stop, target, type) => .tryCatch start stop target type := by
  rw [MethodPlan.code, List.map_map]
  refine List.map_congr_left fun handler hmem => ?_
  obtain ⟨hstart, hstop, htarget⟩ := (h.handlers hconcrete).2 handler hmem
  simp [Int.toNat_of_nonneg hstart.1, Int.toNat_of_nonneg hstop.1, Int.toNat_of_nonneg htarget.1]

theorem MethodDraft.Follows.tells_body {pool : Pool} {d : MethodDraft} {e : MethodPlan} (h : d.Follows v pool e)
    (hv : v.Separate) (hsize : pool.slots.size ≤ 65536) (hfits : e.Fits) (hl : pool.Linked) (hc : pool.Closed)
    (htold : e.isAbstract = false → ∀ t ∈ e.told, t.Linked pool) :
    ∃ planned, e.body pool = .ok planned ∧
      Tells ((e.method d.code).code.toList.flatMap (Code.cues pool (e.method d.code).decl)) (planned.map .code) := by
  cases habstract : e.isAbstract with
  | true => exact ⟨[], by rw [MethodPlan.body, habstract]; rfl, [], by simp [MethodPlan.method, habstract], rfl⟩
  | false =>
    obtain ⟨told, ht⟩ := exists_mapM_eq_ok fun t ht => (htold habstract t ht).resolve hl hc
    have hcoded : Told.Coded pool 0 (e.code d.code).bytes e.told := h.code hv pool (.refl pool) hsize
    obtain ⟨hfault, hbody⟩ := Code.body_of_coded hcoded ht
    obtain ⟨hstack, hlocals⟩ := hfits.maxs habstract
    have hmaxs : ((e.code d.code).maxStack : Int) = e.maxStack ∧ ((e.code d.code).maxLocals : Int) = e.maxLocals :=
      ⟨Int.toNat_of_nonneg hstack.1, Int.toNat_of_nonneg hlocals.1⟩
    have hplanned : e.body pool = .ok (((e.code d.code).body pool).events.filter (!·.isMark)) := by
      rw [hbody, hfits.tryCatch habstract, hmaxs.1, hmaxs.2, MethodPlan.body, habstract, ht]
      rfl
    refine ⟨_, hplanned, ?_⟩
    simpa [MethodPlan.method, habstract] using Tells.code hfault rfl

theorem MethodDraft.Follows.tells {pool : Pool} {d : MethodDraft} {e : MethodPlan} (h : d.Follows v pool e)
    (hv : v.Separate) (hsize : pool.slots.size ≤ 65536) (hfits : e.Fits) (hl : pool.Linked) (hc : pool.Closed)
    (htold : e.isAbstract = false → ∀ t ∈ e.told, t.Linked pool) :
    ∃ planned, e.events pool = .ok planned ∧ Tells ((e.method d.code).cues pool) planned := by
  obtain ⟨planned, hplanned, hbody⟩ := h.tells_body hv hsize hfits hl hc htold
  have hopening : Tells [.event none (.method (e.method d.code).decl)] [.method (e.method d.code).decl] :=
    .event rfl
  have hclosing : Tells [.event none (.code .finish)] [.code .finish] := .event rfl
  refine ⟨_, ?_, hopening.append (hbody.append hclosing)⟩
  rw [MethodPlan.events, hplanned]
  rfl

theorem Tells.methods {pool : Pool} {ds : List MethodDraft} {es : List MethodPlan}
    (h : List.Forall₂ (fun d e => ∃ planned, e.events pool = .ok planned ∧
      Tells ((e.method d.code).cues pool) planned) ds es) :
    ∃ planned, es.mapM (MethodPlan.events pool) = .ok planned ∧
      Tells (((ds.zip es).map fun (d, e) => e.method d.code).flatMap (Method.cues pool)) planned.flatten := by
  induction h with
  | nil => exact ⟨[], rfl, [], rfl, rfl⟩
  | cons hde _ ih =>
    obtain ⟨events, hevents, htells⟩ := hde
    obtain ⟨planned, hplanned, hrest⟩ := ih
    refine ⟨events :: planned, ?_, htells.append hrest⟩
    rw [List.mapM_cons, hevents, ok_bind, hplanned]
    rfl

/-- A class whose methods are told as planned is told as planned. -/
theorem Plan.tells_script {pool : Pool} (h : List.Forall₂ (fun d e => ∃ planned, e.events pool = .ok planned ∧
      Tells ((e.method d.code).cues pool) planned) a.methods.toList p.methods) :
    ∃ planned, p.events pool = .ok planned ∧ Tells (p.classFile a.codes pool).script planned := by
  obtain ⟨planned, hplanned, hmethods⟩ := Tells.methods h
  rw [← zipWith_codes] at hmethods
  have hopening : Tells [.event none (.declare (some p.header))] [.declare (some p.header)] := .event rfl
  have hmembers := Tells.members (p.classFile a.codes pool).memberEvents
  have hclosing : Tells [.event none (.member .finish)] [.member .finish] := .event rfl
  refine ⟨_, ?_, hopening.append ((hmembers.append hmethods).append hclosing)⟩
  rw [Plan.events, hplanned, ClassFile.memberEvents]
  simp only [Plan.classFile, List.map_nil, List.append_nil, List.map_map]
  rfl

end Linkage
