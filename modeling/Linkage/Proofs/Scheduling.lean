import Mathlib.Algebra.BigOperators.Group.List.Basic
import Mathlib.Logic.Relation
import Linkage.Proofs.ByteOrder
import Linkage.Proofs.Extraction
import Linkage.Proofs.Remembering

/-!
Files analysed by several workers at once. A worker takes the next file, looks up or extracts one source after the
other, and merges the classes of the whole file into the model; between these steps the others go on, with the same
memory and the same model. The main statement is that the order of all these steps does not matter: every schedule
comes to an end, with the model that one worker alone makes.
-/
namespace Linkage

/-- A file that a worker is busy with. -/
structure Job where
  file : String
  pending : List Source
  /-- The source that was looked up last, if it was not remembered. -/
  missed : Option Source
  found : List ClassRecord

namespace Job

open Analysis

variable {ε : Type} {config : Config} {place : Workplace} {seen : Set Bytes} {job job' : Job} {a a' : Analysis}

def ofSources (file : String) (sources : List Source) : Job := ⟨file, sources, none, []⟩

def Done (job : Job) : Prop := job.pending = [] ∧ job.missed = none

instance (job : Job) : Decidable job.Done := decidable_of_iff (job.pending.isEmpty ∧ job.missed.isNone) (by simp [Done])

/-- What the worker does until another one can come between: it looks a source up, or extracts the one it missed. -/
def advance (config : Config) (job : Job) : Run Analysis (AnalysisError ε) Job :=
  match job.missed, job.pending with
  | some source, _ => do
    let found ← settle config source (← outcomeOf (learn config source))
    return { job with missed := none, found := job.found ++ found }
  | none, source :: rest => do
    match ← look source with
    | some c => return { job with pending := rest, found := job.found ++ [c] }
    | none => return { job with pending := rest, missed := some source }
  | none, [] => return job

/-- The sources that are still to be dealt with. -/
def rest (job : Job) : List Source := job.missed.toList ++ job.pending

/-- What was found and what the rest will give are the classes of the file. -/
structure Follows (config : Config) (place : Workplace) (job : Job) : Prop where
  records : job.found ++ job.rest.flatMap (foundIn config) = recordsIn config place job.file
  rest : ∀ source ∈ job.rest, source ∈ sourcesIn place job.file

theorem follows_ofSources (config : Config) (place : Workplace) (file : String) :
    (ofSources file (sourcesIn place file)).Follows config place :=
  ⟨rfl, fun _ h => h⟩

theorem Follows.found_eq (h : job.Follows config place) (hdone : job.Done) :
    job.found = recordsIn config place job.file := by
  simpa [Job.rest, hdone.1, hdone.2] using h.records

/-- A step of a worker never fails on a file that does not end the analysis, and leaves the rest to do. -/
theorem Follows.advance (h : job.Follows config place) (hinj : Set.InjOn fingerprint seen)
    (hpasses : FilePasses config place job.file) (hcovers : Covers place seen job.file)
    (ha : a.Remembers config seen) :
    ∃ job' a', (job.advance config : Run Analysis (AnalysisError ε) Job) a = (.ok job', a') ∧
      job'.Follows config place ∧ job'.file = job.file ∧ a'.Remembers config seen := by
  obtain ⟨file, pending, missed, found⟩ := job
  obtain ⟨hrecords, hrest⟩ := h
  match missed, pending with
  | some source, pending =>
    have hmem : source ∈ sourcesIn place file := hrest source (by simp [Job.rest])
    obtain ⟨a₁, hlearn, ha₁⟩ := learn_yields (hcovers source hmem) a ha
    obtain ⟨a₂, hsettle, ha₂⟩ := settle_yields (ε := ε) (hpasses.passes source hmem) a₁ ha₁
    have houtcome : (outcomeOf (learn config source) : Run Analysis (AnalysisError ε) _) a =
        (.ok (recordOf config source), a₁) := by rw [outcomeOf, hlearn]
    refine ⟨⟨file, pending, none, found ++ foundIn config source⟩, a₂, ?_, ⟨?_, ?_⟩, rfl, ha₂⟩
    · exact (Run.bind_ok houtcome).trans (Run.bind_ok hsettle)
    · simpa [Job.rest] using hrecords
    · exact fun s hs => hrest s (by simp_all [Job.rest])
  | none, source :: pending =>
    have hmem : source ∈ sourcesIn place file := hrest source (by simp [Job.rest])
    have hlook := look_apply (ε := AnalysisError ε) source a
    cases he : a.known.lookup (fingerprint source.data) with
    | none =>
      rw [he] at hlook
      exact ⟨⟨file, pending, some source, found⟩, a, Run.bind_ok hlook, ⟨hrecords, hrest⟩, rfl, ha⟩
    | some e =>
      rw [he] at hlook
      have hfound : foundIn config source = [source.record e] := by
        rw [foundIn, ha.recordOf_eq hinj (hcovers source hmem) he]
        rfl
      refine ⟨⟨file, pending, none, found ++ [source.record e]⟩, a, Run.bind_ok hlook, ⟨?_, ?_⟩, rfl, ha⟩
      · simpa [Job.rest, hfound] using hrecords
      · exact fun s hs => hrest s (by simp_all [Job.rest])
  | none, [] => exact ⟨_, a, rfl, ⟨hrecords, hrest⟩, rfl, ha⟩

/-- How many steps a worker has before it at most, the merging included. -/
def cost (job : Job) : Nat := 2 * job.pending.length + job.missed.toList.length + 1

theorem cost_advance (hdone : ¬ job.Done)
    (h : (job.advance config : Run Analysis (AnalysisError ε) Job) a = (.ok job', a')) : job'.cost < job.cost := by
  obtain ⟨file, pending, missed, found⟩ := job
  match missed, pending with
  | some source, pending =>
    obtain ⟨outcome, a₁, -, h⟩ := Run.bind_eq_ok h
    obtain ⟨more, a₂, -, h⟩ := Run.bind_eq_ok h
    cases h
    simp [cost]
  | none, source :: pending =>
    obtain ⟨c, a₁, -, h⟩ := Run.bind_eq_ok h
    cases c with
    | none =>
      cases h
      simp only [cost, List.length_cons, Option.toList_some, Option.toList_none, List.length_nil]
      omega
    | some c =>
      cases h
      simp [cost]
  | none, [] => exact absurd ⟨rfl, rfl⟩ hdone

end Job

/-- An analysis at work: the files that wait, those that workers are busy with, and the model so far. -/
structure Batch (ε : Type) where
  analysis : Analysis
  waiting : List String
  jobs : List Job
  model : Model
  failure : Option (AnalysisError ε)

namespace Batch

open Analysis

variable {ε : Type} {config : Config} {place : Workplace} {workers : Nat} {seen : Set Bytes} {files : List String}
  {b b' : Batch ε}

def start (a : Analysis) (files : List String) : Batch ε := ⟨a, files, [], Model.empty, none⟩

/-- One step of one of so many workers. The first failure counts. -/
inductive Step (config : Config) (place : Workplace) (workers : Nat) : Batch ε → Batch ε → Prop
  | take {b : Batch ε} {file : String} {waiting : List String} {sources : List Source}
      (hwaiting : b.waiting = file :: waiting) (hfree : b.jobs.length < workers)
      (hload : Source.load place file = .ok sources) :
      Step config place workers b { b with waiting, jobs := .ofSources file sources :: b.jobs }
  | refuse {b : Batch ε} {file : String} {waiting : List String} {error : SourceError}
      (hwaiting : b.waiting = file :: waiting) (hfree : b.jobs.length < workers)
      (hload : Source.load place file = .error error) :
      Step config place workers b { b with waiting, failure := b.failure.or (some (.source error)) }
  | advance {b : Batch ε} {before after : List Job} {job job' : Job} {a : Analysis}
      (hjobs : b.jobs = before ++ job :: after) (hdone : ¬ job.Done)
      (hrun : job.advance config b.analysis = (Except.ok (ε := AnalysisError ε) job', a)) :
      Step config place workers b { b with jobs := before ++ job' :: after, analysis := a }
  | abandon {b : Batch ε} {before after : List Job} {job : Job} {error : AnalysisError ε} {a : Analysis}
      (hjobs : b.jobs = before ++ job :: after) (hrun : job.advance config b.analysis = (.error error, a)) :
      Step config place workers b
        { b with jobs := before ++ after, analysis := a, failure := b.failure.or (some error) }
  | merge {b : Batch ε} {before after : List Job} {job : Job} {m : Model} {a : Analysis}
      (hjobs : b.jobs = before ++ job :: after) (hdone : job.Done)
      (hrun : addAll b.model job.found b.analysis = (Except.ok (ε := AnalysisError ε) m, a)) :
      Step config place workers b { b with jobs := before ++ after, model := m, analysis := a }

/-- Nothing is left to do. -/
def Finished (b : Batch ε) : Prop := b.waiting = [] ∧ b.jobs = []

def outcome (b : Batch ε) : Except (AnalysisError ε) Model :=
  match b.failure with
  | some error => .error error
  | none => .ok b.model

/-- How many steps are left at most. -/
def cost (place : Workplace) (b : Batch ε) : Nat :=
  (b.waiting.map fun file => 2 * (sourcesIn place file).length + 2).sum + (b.jobs.map Job.cost).sum

theorem cost_lt_of_step (h : Step config place workers b b') : b'.cost place < b.cost place := by
  have hpos (job : Job) : 0 < job.cost := Nat.succ_pos _
  have hsplit (before after : List Job) (job : Job) :
      ((before ++ job :: after).map Job.cost).sum = ((before ++ after).map Job.cost).sum + job.cost := by
    simp only [List.map_append, List.map_cons, List.sum_append, List.sum_cons]
    omega
  cases h with
  | @take file waiting sources hwaiting hfree hload =>
    have hsources : sourcesIn place file = sources := by simp [sourcesIn, hload, Except.toOption]
    have hcost : (Job.ofSources file sources).cost = 2 * sources.length + 1 := rfl
    simp only [cost, hwaiting, List.map_cons, List.sum_cons, hsources, hcost]
    omega
  | refuse hwaiting hfree hload =>
    simp only [cost, hwaiting, List.map_cons, List.sum_cons]
    omega
  | advance hjobs hdone hrun =>
    have hlt := Job.cost_advance hdone hrun
    simp only [cost, hjobs, hsplit]
    omega
  | abandon hjobs hrun =>
    simp only [cost, hjobs, hsplit]
    exact Nat.add_lt_add_left (Nat.lt_add_of_pos_right (hpos _)) _
  | merge hjobs hdone hrun =>
    simp only [cost, hjobs, hsplit]
    exact Nat.add_lt_add_left (Nat.lt_add_of_pos_right (hpos _)) _

/-- Every schedule comes to an end. -/
theorem wellFounded_step (config : Config) (place : Workplace) (workers : Nat) :
    WellFounded fun b' b : Batch ε => Step config place workers b b' :=
  Subrelation.wf cost_lt_of_step (measure (cost place)).wf

/-- What holds at every point of a schedule for these files: nothing has failed, the model holds the files merged so
far, and what is found in the others adds up to their classes. -/
structure Inv (config : Config) (place : Workplace) (seen : Set Bytes) (files : List String) (b : Batch ε) : Prop where
  remembers : b.analysis.Remembers config seen
  sound : b.failure = none
  merged : ∃ merged, b.model.Holds (recordsIn config place) merged ∧
    ∀ file, file ∈ files ↔ file ∈ merged ∨ file ∈ b.waiting ∨ file ∈ b.jobs.map Job.file
  follows : ∀ job ∈ b.jobs, job.Follows config place

theorem inv_start {a : Analysis} (ha : a.Remembers config seen) (files : List String) :
    (start a files : Batch ε).Inv config place seen files :=
  ⟨ha, rfl, ⟨[], Model.holds_empty _, by simp [start]⟩, nofun⟩

theorem Inv.mem_of_job (h : b.Inv config place seen files) {before after : List Job} {job : Job}
    (hjobs : b.jobs = before ++ job :: after) : job.file ∈ files ∧ job.Follows config place := by
  obtain ⟨merged, -, hfiles⟩ := h.merged
  have hmem : job ∈ b.jobs := by simp [hjobs]
  exact ⟨(hfiles job.file).mpr (.inr (.inr (List.mem_map_of_mem hmem))), h.follows job hmem⟩

theorem Inv.step (h : b.Inv config place seen files) (hinj : Set.InjOn fingerprint seen)
    (hfiles : ∀ file ∈ files, FilePasses config place file ∧ Covers place seen file)
    (hstep : Step config place workers b b') : b'.Inv config place seen files := by
  obtain ⟨merged, hholds, hmem⟩ := h.merged
  cases hstep with
  | @take file waiting sources hwaiting hfree hload =>
    have hsources : sources = sourcesIn place file := by simp [sourcesIn, hload, Except.toOption]
    refine ⟨h.remembers, h.sound, ⟨merged, hholds, fun f => ?_⟩, fun job hjob => ?_⟩
    · rw [hmem, hwaiting]
      simp only [List.mem_cons, List.map_cons, Job.ofSources]
      tauto
    · obtain rfl | hjob := List.mem_cons.mp hjob
      · rw [hsources]
        exact Job.follows_ofSources config place file
      · exact h.follows job hjob
  | @refuse file waiting error hwaiting hfree hload =>
    have hpasses := (hfiles file ((hmem file).mpr (.inr (.inl (by simp [hwaiting]))))).1
    cases hpasses.load.symm.trans hload
  | @advance before after job job' a hjobs hdone hrun =>
    obtain ⟨hfile, hfollows⟩ := h.mem_of_job hjobs
    obtain ⟨job₁, a₁, hrun₁, hfollows₁, hfile₁, ha₁⟩ :=
      hfollows.advance hinj (hfiles _ hfile).1 (hfiles _ hfile).2 h.remembers
    cases hrun.symm.trans hrun₁
    refine ⟨ha₁, h.sound, ⟨merged, hholds, fun f => ?_⟩, fun j hj => ?_⟩
    · rw [hmem, hjobs]
      simp [hfile₁]
    · obtain hj | rfl | hj := by simpa using hj
      · exact h.follows j (by simp [hjobs, hj])
      · exact hfollows₁
      · exact h.follows j (by simp [hjobs, hj])
  | @abandon before after job error a hjobs hrun =>
    obtain ⟨hfile, hfollows⟩ := h.mem_of_job hjobs
    obtain ⟨job₁, a₁, hrun₁, -⟩ := hfollows.advance (ε := ε) hinj (hfiles _ hfile).1 (hfiles _ hfile).2 h.remembers
    cases hrun.symm.trans hrun₁
  | @merge before after job m a hjobs hdone hrun =>
    obtain ⟨-, hfollows⟩ := h.mem_of_job hjobs
    obtain ⟨a₁, hrun₁, ha₁⟩ := addAll_yields (ε := AnalysisError ε) b.model job.found b.analysis h.remembers
    cases hrun.symm.trans hrun₁
    rw [hfollows.found_eq hdone]
    refine ⟨ha₁, h.sound, ⟨job.file :: merged, hholds.addEach (location_of_mem_recordsIn config place) job.file,
      fun f => ?_⟩, fun j hj => h.follows j ?_⟩
    · rw [hmem, hjobs]
      simp only [List.map_append, List.map_cons, List.mem_append, List.mem_cons]
      tauto
    · rw [hjobs]
      simp only [List.mem_append, List.mem_cons] at hj ⊢
      tauto

theorem Inv.run (h : b.Inv config place seen files) (hinj : Set.InjOn fingerprint seen)
    (hfiles : ∀ file ∈ files, FilePasses config place file ∧ Covers place seen file)
    (hrun : Relation.ReflTransGen (Step config place workers) b b') : b'.Inv config place seen files := by
  induction hrun with
  | refl => exact h
  | tail _ hstep ih => exact ih.step hinj hfiles hstep

/-- As long as something is left to do, some worker can do it. -/
theorem Inv.progress (h : b.Inv config place seen files) (hinj : Set.InjOn fingerprint seen)
    (hfiles : ∀ file ∈ files, FilePasses config place file ∧ Covers place seen file) (hworkers : 0 < workers)
    (hb : ¬ b.Finished) : ∃ b', Step config place workers b b' := by
  cases hjobs : b.jobs with
  | nil =>
    cases hwaiting : b.waiting with
    | nil => exact absurd ⟨hwaiting, hjobs⟩ hb
    | cons file waiting =>
      obtain ⟨merged, -, hmem⟩ := h.merged
      have hpasses := (hfiles file ((hmem file).mpr (.inr (.inl (by simp [hwaiting]))))).1
      exact ⟨_, .take hwaiting (by simpa [hjobs] using hworkers) hpasses.load⟩
  | cons job jobs =>
    replace hjobs : b.jobs = [] ++ job :: jobs := hjobs
    obtain ⟨hfile, hfollows⟩ := h.mem_of_job hjobs
    by_cases hdone : job.Done
    · obtain ⟨a, hrun, -⟩ := addAll_yields (ε := AnalysisError ε) b.model job.found b.analysis h.remembers
      exact ⟨_, .merge hjobs hdone hrun⟩
    · obtain ⟨job', a, hrun, -⟩ := hfollows.advance hinj (hfiles _ hfile).1 (hfiles _ hfile).2 h.remembers
      exact ⟨_, .advance hjobs hdone hrun⟩

theorem Inv.holds_of_finished (h : b.Inv config place seen files) (hb : b.Finished) :
    b.model.Holds (recordsIn config place) files := by
  obtain ⟨merged, hholds, hmem⟩ := h.merged
  exact hholds.congr fun file => by simp [hmem, hb.1, hb.2]

/-- What a worker alone does with the sources of a file is done in its steps. -/
theorem run_classesOf {a a' : Analysis} {waiting : List String} {file : String} {sources : List Source}
    {found records : List ClassRecord} {m : Model}
    (h : classesOf config false sources a = (Except.ok (ε := AnalysisError ε) records, a')) :
    Relation.ReflTransGen (Step config place workers) ⟨a, waiting, [⟨file, sources, none, found⟩], m, none⟩
      (⟨a', waiting, [⟨file, [], none, found ++ records⟩], m, none⟩ : Batch ε) := by
  have hstep {a a' : Analysis} {job job' : Job} (hdone : ¬ job.Done)
      (hrun : job.advance config a = (Except.ok (ε := AnalysisError ε) job', a')) :
      Step config place workers ⟨a, waiting, [job], m, none⟩ (⟨a', waiting, [job'], m, none⟩ : Batch ε) := by
    have hjobs : (⟨a, waiting, [job], m, none⟩ : Batch ε).jobs = [] ++ job :: [] := rfl
    exact .advance hjobs hdone hrun
  induction sources generalizing a found records with
  | nil =>
    cases h
    rw [List.append_nil]
  | cons source rest ih =>
    rw [classesOf_cons] at h
    obtain ⟨outcome, a₁, hclass, h⟩ := Run.bind_eq_ok h
    obtain ⟨more, a₂, hsettle, h⟩ := Run.bind_eq_ok h
    obtain ⟨others, a₃, hrest, h⟩ := Run.bind_eq_ok h
    cases h
    rw [← List.append_assoc]
    refine .trans ?_ (ih hrest)
    have hlook := look_apply (ε := AnalysisError ε) source a
    rw [outcomeOf, classOf_eq, Run.bind_ok (look_apply source a)] at hclass
    cases he : a.known.lookup (fingerprint source.data) with
    | none =>
      rw [he] at hlook hclass
      refine .tail (.single (hstep (by simp [Job.Done]) (Run.bind_ok hlook))) (hstep (by simp [Job.Done]) ?_)
      exact (Run.bind_ok hclass).trans (Run.bind_ok hsettle)
    | some e =>
      rw [he] at hlook hclass
      cases hclass
      cases hsettle
      exact .single (hstep (by simp [Job.Done]) (Run.bind_ok hlook))

/-- One worker alone follows a schedule as well. -/
theorem run_addFiles {a a' : Analysis} {files : List String} {m m' : Model} (hworkers : 0 < workers)
    (h : addFiles config false place m files a = (Except.ok (ε := AnalysisError ε) m', a')) :
    Relation.ReflTransGen (Step config place workers) ⟨a, files, [], m, none⟩
      (⟨a', [], [], m', none⟩ : Batch ε) := by
  induction files generalizing a m with
  | nil =>
    cases h
    exact .refl
  | cons file files ih =>
    rw [addFiles] at h
    cases hload : Source.load place file with
    | error error =>
      rw [hload] at h
      cases h
    | ok sources =>
      rw [hload] at h
      obtain ⟨records, a₁, hclasses, h⟩ := Run.bind_eq_ok h
      obtain ⟨m₁, a₂, hadd, h⟩ := Run.bind_eq_ok h
      have htake : Step config place workers (⟨a, file :: files, [], m, none⟩ : Batch ε) _ := .take rfl hworkers hload
      have hmerge : Step config place workers (⟨a₁, files, [⟨file, [], none, records⟩], m, none⟩ : Batch ε) _ :=
        .merge (show [_] = [] ++ _ :: [] from rfl) ⟨rfl, rfl⟩ hadd
      exact .head htake ((run_classesOf hclasses).trans (.head hmerge (ih h)))

end Batch

namespace Analysis

variable {config : Config} {place : Workplace} {seen : Set Bytes} {files : List String} {m : Model}

/-- The class is that of the first source which carries the name, in the file with the lowest bytes in its address
among those that have such a source. -/
def Chosen (config : Config) (place : Workplace) (files : List String) (n : String) (c : ClassRecord) : Prop :=
  ∃ file ∈ files, ∃ before source after edges, Source.load place file = .ok (before ++ source :: after) ∧
    (∀ earlier ∈ before, ∀ edges, ¬ Carries config earlier n edges) ∧ Carries config source n edges ∧
    c = ⟨n, file, fingerprint source.data, edges⟩ ∧
    ∀ other ∈ files, (∃ source ∈ sourcesIn place other, ∃ edges, Carries config source n edges) →
      utf8Bytes file ≤ utf8Bytes other

/-- The references of a class all start in it. -/
theorem Carries.source_owner {source : Source} {n : String} {edges : List Access}
    (h : Carries config source n edges) : ∀ access ∈ edges, access.source.owner = n := by
  obtain ⟨c, -, rfl, -, hedges⟩ := h
  obtain ⟨events, -, rfl⟩ := ClassFile.exists_records_of_collect_eq_ok hedges
  exact fun access h => Event.source_owner_of_mem_edges h

theorem chosen_of_find? (hm : m.Holds (recordsIn config place) files)
    (hfiles : ∀ file ∈ files, FilePasses config place file) {n : String} {c : ClassRecord}
    (hc : m.find? n = some c) : Chosen config place files n c := by
  obtain ⟨file, hfirst⟩ := hm.found n c hc
  obtain ⟨before, source, after, edges, hsources, hbefore, hcarries, rfl⟩ :=
    firstOf_recordsIn_eq_some_iff.mp hfirst.first
  refine ⟨file, hfirst.mem, before, source, after, edges, ?_, hbefore, hcarries, rfl, ?_⟩
  · rw [← hsources]
    exact (hfiles file hfirst.mem).load
  · rintro other ho ⟨source', hs, edges', hcarries'⟩ hlt
    refine String.not_lt.mpr (hfirst.lowest other ho fun hnone => ?_) (utf8Bytes_lt_iff.mp hlt)
    exact firstOf_recordsIn_eq_none_iff.mp hnone source' hs edges' hcarries'

theorem find?_eq_none_iff (hm : m.Holds (recordsIn config place) files) (n : String) :
    m.find? n = none ↔
      ∀ file ∈ files, ∀ source ∈ sourcesIn place file, ∀ edges, ¬ Carries config source n edges := by
  constructor
  · exact fun hn file hf => firstOf_recordsIn_eq_none_iff.mp (hm.missing n hn file hf)
  · intro h
    rw [Option.eq_none_iff_forall_ne_some]
    intro c hc
    obtain ⟨file, hfirst⟩ := hm.found n c hc
    cases hfirst.first.symm.trans (firstOf_recordsIn_eq_none_iff.mpr (h file hfirst.mem))

/-- The model of a batch does not depend on its schedule. If no file ends the analysis, there is one model that one
worker alone makes of the locations, given in any order and any number of times, and in which every schedule of any
number of workers ends. It holds for each name that some source carries the class of the first such source in the
lowest file, with its location, its fingerprint and its references, all of which start in the class; and no other
name. -/
theorem model_independent_of_schedule {ε : Type} {start : Analysis} {locations : List String}
    (hlocated : filesOf config place locations = .ok files)
    (hpasses : ∀ file ∈ files, FilePasses config place file) (hseen : ∀ file ∈ files, Covers place seen file)
    (hinj : Set.InjOn fingerprint seen) (hstart : start.Remembers config seen) :
    ∃ m : Model,
      (∀ locations', (∀ l, l ∈ locations' ↔ l ∈ locations) →
        ((modelOf config false place locations' : Run Analysis (AnalysisError ε) Model) start).1 = .ok m ∧
        ∃ files', filesOf config place locations' = .ok files' ∧ ∀ workers, 0 < workers →
          WellFounded (fun b' b : Batch ε => b.Step config place workers b') ∧
          (∃ b : Batch ε, Relation.ReflTransGen (Batch.Step config place workers) (.start start files') b ∧
            b.Finished ∧ addFiles config false place Model.empty files' start = (b.outcome, b.analysis)) ∧
          ∀ b : Batch ε, Relation.ReflTransGen (Batch.Step config place workers) (.start start files') b →
            (∃ b', b.Step config place workers b') ∨ b.Finished ∧ b.outcome = .ok m) ∧
      (∀ n, m.find? n = none ↔
        ∀ file ∈ files, ∀ source ∈ sourcesIn place file, ∀ edges, ¬ Carries config source n edges) ∧
      ∀ n c, m.find? n = some c → Chosen config place files n c ∧ ∀ access ∈ c.edges, access.source.owner = n := by
  have hfiles : ∀ file ∈ files, FilePasses config place file ∧ Covers place seen file :=
    fun file hf => ⟨hpasses file hf, hseen file hf⟩
  obtain ⟨m, hm, -⟩ := modelOf_holds (ε := ε) hinj hlocated hfiles
  refine ⟨m, fun locations' hsame => ?_, find?_eq_none_iff hm, fun n c hc => ?_⟩
  · obtain ⟨files', hlocated', hsame'⟩ := exists_filesOf_of_mem_iff hlocated hsame
    have hfiles' : ∀ file ∈ files', FilePasses config place file ∧ Covers place seen file :=
      fun file hf => hfiles file ((hsame' file).mp hf)
    obtain ⟨m', hm', hyields⟩ := modelOf_holds (ε := ε) hinj hlocated' hfiles'
    obtain rfl := hm.unique (hm'.congr hsame')
    obtain ⟨a, hrun, -⟩ := hyields start hstart
    refine ⟨congrArg Prod.fst hrun, files', hlocated', fun workers hworkers => ?_⟩
    obtain ⟨alone, -, halone⟩ := addFiles_holds (ε := ε) hinj hfiles' (Model.holds_empty (recordsIn config place))
    obtain ⟨a₁, hadd, -⟩ := halone start hstart
    refine ⟨Batch.wellFounded_step config place workers,
      ⟨_, Batch.run_addFiles hworkers hadd, ⟨rfl, rfl⟩, hadd⟩, fun b hb => ?_⟩
    have hinv := (Batch.inv_start (ε := ε) hstart files').run hinj hfiles' hb
    by_cases hfinished : b.Finished
    · refine .inr ⟨hfinished, ?_⟩
      rw [Batch.outcome, hinv.sound, (hinv.holds_of_finished hfinished).unique hm']
    · exact .inl (hinv.progress hinj hfiles' hworkers hfinished)
  · have hchosen := chosen_of_find? hm hpasses hc
    refine ⟨hchosen, ?_⟩
    obtain ⟨file, -, before, source, after, edges, -, -, hcarries, rfl, -⟩ := hchosen
    exact hcarries.source_owner

/-- Files that are found in rising order are analysed in that order. -/
theorem filesOf_of_sorted {locations : List String} {found : List (List String)}
    (hfound : (locations.mapM (filesAt config place)).toOption = some found)
    (hsorted : found.flatten.Pairwise (· ≤ ·)) : filesOf config place locations = .ok found.flatten := by
  have hmap : locations.mapM (filesAt config place) = .ok found := by
    cases h : locations.mapM (filesAt config place) <;> simp_all [Except.toOption]
  rw [filesOf, hmap]
  exact congrArg Except.ok (List.mergeSort_of_pairwise (hsorted.imp fun h => decide_eq_true h))

/-- Two files that hold one class. -/
def twins : Workplace :=
  ⟨"/", .directory [("b.class", .file ClassFile.callerBytes), ("a.class", .file ClassFile.callerBytes)]⟩

theorem twins_located : filesOf {} twins ["file:///a.class", "file:///b.class"] =
    .ok ["file://localhost/a.class", "file://localhost/b.class"] := by
  have hfound : (["file:///a.class", "file:///b.class"].mapM (filesAt {} twins)).toOption =
      some [["file://localhost/a.class"], ["file://localhost/b.class"]] := by decide +kernel
  exact filesOf_of_sorted hfound (by decide +kernel)

theorem twins_sources :
    sourcesIn twins "file://localhost/a.class" = [⟨"a.class", "file://localhost/a.class", ClassFile.callerBytes⟩] ∧
    sourcesIn twins "file://localhost/b.class" = [⟨"b.class", "file://localhost/b.class", ClassFile.callerBytes⟩] := by
  decide +kernel

theorem twins_passes : ∀ file ∈ ["file://localhost/a.class", "file://localhost/b.class"],
    FilePasses {} twins file ∧ Covers twins {ClassFile.callerBytes} file := by
  have hload : ∀ file ∈ ["file://localhost/a.class", "file://localhost/b.class"],
      Source.load twins file = .ok (sourcesIn twins file) := by decide +kernel
  refine fun file hf => ⟨⟨hload file hf, fun _ _ => nofun⟩, ?_⟩
  obtain rfl | rfl : file = "file://localhost/a.class" ∨ file = "file://localhost/b.class" := by simpa using hf
  · simp [Covers, twins_sources.1]
  · simp [Covers, twins_sources.2]

/-- Whoever is first, the class is that of the lower file. -/
theorem twins_model :
    ∃ m : Model, ∃ c, m.find? "A" = some c ∧ c.location = "file://localhost/a.class" ∧
      ((modelOf {} false twins ["file:///b.class", "file:///a.class", "file:///b.class"] :
        Run Analysis (AnalysisError Empty) Model) {}).1 = .ok m ∧
      ∀ b : Batch Empty, Relation.ReflTransGen (Batch.Step {} twins 2)
          (.start {} ["file://localhost/a.class", "file://localhost/b.class"]) b →
        (∃ b', b.Step {} twins 2 b') ∨ b.Finished ∧ b.outcome = .ok m := by
  obtain ⟨m, hruns, hnone, hsome⟩ := model_independent_of_schedule (ε := Empty) twins_located
    (fun file hf => (twins_passes file hf).1) (fun file hf => (twins_passes file hf).2) (Set.injOn_singleton _ _)
    (remembers_nothing {} {ClassFile.callerBytes})
  have hcarries : Carries {} ⟨"a.class", "file://localhost/a.class", ClassFile.callerBytes⟩ "A"
      [⟨⟨"A", "f"⟩, ⟨"B", "f"⟩⟩, ⟨⟨"A", "f"⟩, ⟨"B", "f"⟩⟩] :=
    ⟨ClassFile.caller, ClassFile.parse_callerBytes, rfl, by decide, by cbv⟩
  have hmem : (⟨"a.class", "file://localhost/a.class", ClassFile.callerBytes⟩ : Source) ∈
      sourcesIn twins "file://localhost/a.class" := by simp [twins_sources.1]
  obtain ⟨c, hc⟩ : ∃ c, m.find? "A" = some c := by
    rw [← Option.ne_none_iff_exists']
    exact fun h => (hnone "A").mp h _ (by simp) _ hmem _ hcarries
  refine ⟨m, c, hc, ?_, (hruns _ (by simp)).1, ?_⟩
  · obtain ⟨file, hf, before, source, after, edges, -, -, -, rfl, hlowest⟩ := (hsome "A" c hc).1
    have hle := hlowest "file://localhost/a.class" (by simp) ⟨_, hmem, _, hcarries⟩
    obtain rfl | rfl : file = "file://localhost/a.class" ∨ file = "file://localhost/b.class" := by simpa using hf
    · rfl
    · exact absurd (utf8Bytes_lt_iff.mpr (by decide +kernel)) hle
  · obtain ⟨-, files, hlocated, hschedules⟩ := hruns ["file:///a.class", "file:///b.class"] fun _ => Iff.rfl
    obtain rfl := Except.ok.inj (twins_located.symm.trans hlocated)
    exact (hschedules 2 (by decide)).2.2

end Analysis
end Linkage
