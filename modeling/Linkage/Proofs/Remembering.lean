import Mathlib.Data.Set.Function
import Linkage.Analysis
import Linkage.Proofs.Merging
import Linkage.Proofs.Run

/-!
What an analysis remembers does not change what it finds. Every remembered class was extracted from some bytes, and as
long as no two of the byte strings met have one fingerprint, a class that is remembered is the one that would be
extracted. So the classes of files can be given without any memory, and a model of the files holds them.
-/
namespace Linkage

/-- The class that was found in a source. -/
def Source.record (s : Source) (e : Extracted) : ClassRecord := ⟨e.name, s.location, fingerprint s.data, e.edges⟩

theorem Source.location_of_ofFile {kind : FileKind} {location : String} {data : Bytes} {sources : List Source}
    (h : Source.ofFile kind location data = .ok sources) : ∀ source ∈ sources, source.location = location := by
  cases kind with
  | classFile =>
    obtain rfl := Except.ok.inj h
    simp
  | jar =>
    obtain ⟨entries, -, h⟩ := bind_eq_ok_iff.mp h
    intro source hs
    obtain ⟨e, -, he⟩ := (exists_eq_ok_of_mapM h).2 source hs
    obtain ⟨content, -, he⟩ := bind_eq_ok_iff.mp he
    obtain rfl := Except.ok.inj he
    rfl

namespace Analysis

variable {ε : Type} {config : Config} {place : Workplace} {seen : Set Bytes}

/-- The class of a source, if it is remembered. -/
def look (source : Source) : Run Analysis ε (Option ClassRecord) := do
  return ((← get).known.lookup (fingerprint source.data)).map source.record

/-- Extracts the class of a source, and remembers it. -/
def learn (config : Config) (source : Source) : Run Analysis (ExtractError Empty) (Option ClassRecord) := do
  match ← classOf.liftExcept (extract config source.data) with
  | none => return none
  | some e =>
    modify fun a => { a with known := (fingerprint source.data, e) :: a.known }
    notify (.analyzed e.name e.edges.length)
    return some (source.record e)

theorem classOf_eq (config : Config) (source : Source) : classOf config source = (do
    match ← look source with
    | some c => return some c
    | none => learn config source) := by
  funext a
  rw [classOf, look, bind_assoc, Run.bind_apply, Run.bind_apply, Run.get_apply]
  dsimp only
  cases a.known.lookup (fingerprint source.data) <;> rfl

/-- Everything remembered was extracted from bytes that were seen. -/
def Remembers (config : Config) (seen : Set Bytes) (a : Analysis) : Prop :=
  ∀ p ∈ a.known, ∃ data ∈ seen, fingerprint data = p.1 ∧ extract config data = .ok (some p.2)

theorem remembers_nothing (config : Config) (seen : Set Bytes) : Remembers config seen {} :=
  fun _ h => absurd h List.not_mem_nil

/-- What is remembered of bytes was extracted from them. -/
theorem Remembers.extract_eq {a : Analysis} (h : a.Remembers config seen) (hinj : Set.InjOn fingerprint seen)
    {data : Bytes} (hdata : data ∈ seen) {e : Extracted} (he : a.known.lookup (fingerprint data) = some e) :
    extract config data = .ok (some e) := by
  obtain ⟨before, after, hknown, -⟩ := List.lookup_eq_some_iff.mp he
  obtain ⟨data', hseen, heq, hextract⟩ := h (fingerprint data, e) (by simp [hknown])
  rwa [← hinj hseen hdata heq]

/-- The class of a source, whatever is remembered. -/
def recordOf (config : Config) (source : Source) : Except (ExtractError Empty) (Option ClassRecord) := do
  return (← extract config source.data).map source.record

theorem Remembers.recordOf_eq {a : Analysis} (h : a.Remembers config seen) (hinj : Set.InjOn fingerprint seen)
    {source : Source} (hsource : source.data ∈ seen) {e : Extracted}
    (he : a.known.lookup (fingerprint source.data) = some e) : recordOf config source = .ok (some (source.record e)) := by
  rw [recordOf, h.extract_eq hinj hsource he]
  rfl

theorem look_apply (source : Source) (a : Analysis) : (look source : Run Analysis ε _) a =
    (.ok ((a.known.lookup (fingerprint source.data)).map source.record), a) := rfl

theorem notify_yields (n : Notice) : Run.Yields (Remembers config seen) (notify n : Run Analysis ε Unit) (.ok ()) :=
  fun _ h => ⟨_, rfl, h⟩

theorem learn_yields {source : Source} (hsource : source.data ∈ seen) :
    Run.Yields (Remembers config seen) (learn config source) (recordOf config source) := by
  refine Run.Yields.bind (fun a ha => ⟨a, rfl, ha⟩) fun o ho => ?_
  cases o with
  | none => exact Run.yields_pure none
  | some e =>
    refine fun a ha => ⟨_, rfl, fun p hp => ?_⟩
    obtain rfl | hp := List.mem_cons.mp hp
    · exact ⟨source.data, hsource, rfl, ho⟩
    · exact ha p hp

theorem classOf_yields (hinj : Set.InjOn fingerprint seen) {source : Source} (hsource : source.data ∈ seen) :
    Run.Yields (Remembers config seen) (classOf config source) (recordOf config source) := by
  intro a ha
  rw [classOf_eq, Run.bind_ok (look_apply source a)]
  cases he : a.known.lookup (fingerprint source.data) with
  | none => exact learn_yields hsource a ha
  | some e => exact ⟨a, by rw [ha.recordOf_eq hinj hsource he]; rfl, ha⟩

/-- What becomes of the class of a source: nothing if it is malformed, or the end of the analysis if the settings are
strict. -/
def settle (config : Config) (source : Source) :
    Except (ExtractError Empty) (Option ClassRecord) → Run Analysis (AnalysisError ε) (List ClassRecord)
  | .ok c => return c.toList
  | .error error => do
    if config.strict then throw (.malformed source.name source.location error)
    notify (.skipped source.name source.location error)
    return []

theorem classesOf_cons (config : Config) (source : Source) (rest : List Source) :
    (classesOf config false (source :: rest) : Run Analysis (AnalysisError ε) _) = (do
      let found ← settle config source (← outcomeOf (classOf config source))
      return found ++ (← classesOf config false rest)) := by
  rw [classesOf]
  refine bind_congr fun outcome => ?_
  obtain error | _ | c := outcome
  · cases hs : config.strict <;> simp [settle, hs]
  · simp [settle]
  · simp [settle]

/-- The class of a source, if it is neither malformed nor left out by the settings. -/
def foundIn (config : Config) (source : Source) : List ClassRecord :=
  match recordOf config source with
  | .ok c => c.toList
  | .error _ => []

theorem mem_foundIn_iff {source : Source} {c : ClassRecord} :
    c ∈ foundIn config source ↔ ∃ e, extract config source.data = .ok (some e) ∧ c = source.record e := by
  rw [foundIn, recordOf]
  rcases extract config source.data with error | _ | e
  · simp [bind, Except.bind]
  · simp [bind, Except.bind, pure, Except.pure]
  · simp [bind, Except.bind, pure, Except.pure]

/-- The source does not end the analysis. -/
def Passes (config : Config) (source : Source) : Prop :=
  config.strict = true → ∃ e, extract config source.data = .ok e

theorem settle_yields {source : Source} (hpasses : Passes config source) :
    Run.Yields (Remembers config seen) (settle config source (recordOf config source) : Run Analysis (AnalysisError ε) _)
      (.ok (foundIn config source)) := by
  rw [foundIn]
  cases hr : recordOf config source with
  | ok c => exact Run.yields_pure _
  | error error =>
    have hlenient : config.strict = false := by
      rw [Bool.eq_false_iff]
      intro hstrict
      obtain ⟨e, he⟩ := hpasses hstrict
      rw [recordOf, he] at hr
      cases hr
    rw [settle, hlenient]
    exact (notify_yields _).bind_ok (Run.yields_pure [])

theorem classesOf_yields (hinj : Set.InjOn fingerprint seen) {sources : List Source}
    (hsources : ∀ source ∈ sources, source.data ∈ seen ∧ Passes config source) :
    Run.Yields (Remembers config seen) (classesOf config false sources : Run Analysis (AnalysisError ε) _)
      (.ok (sources.flatMap (foundIn config))) := by
  induction sources with
  | nil => exact Run.yields_pure []
  | cons source rest ih =>
    obtain ⟨hsource, hpasses⟩ := hsources source (by simp)
    have hrest := ih fun s hs => hsources s (by simp [hs])
    have hclass : Run.Yields (Remembers config seen)
        (outcomeOf (classOf config source) : Run Analysis (AnalysisError ε) _) (.ok (recordOf config source)) := by
      intro a ha
      obtain ⟨a', h, ha'⟩ := classOf_yields hinj hsource a ha
      exact ⟨a', by rw [outcomeOf, h], ha'⟩
    rw [classesOf_cons, List.flatMap_cons]
    exact hclass.bind_ok ((settle_yields hpasses).bind_ok (hrest.bind_ok (Run.yields_pure _)))

theorem addAll_yields (m : Model) (cs : List ClassRecord) :
    Run.Yields (Remembers config seen) (addAll m cs : Run Analysis ε Model) (.ok (m.addEach cs)) := by
  induction cs generalizing m with
  | nil => exact Run.yields_pure m
  | cons c cs ih =>
    have hrest : Run.Yields (Remembers config seen) (addAll (m.add c).1 cs : Run Analysis ε Model)
      (.ok (m.addEach (c :: cs))) := ih (m.add c).1
    rw [addAll]
    cases hd : (m.add c).2 with
    | none => simpa [hd] using hrest
    | some d => simpa [hd] using (notify_yields _).bind_ok hrest

/-- The sources of a file; none if it cannot be read. -/
def sourcesIn (place : Workplace) (file : String) : List Source := (Source.load place file).toOption.getD []

/-- The classes of a file. -/
def recordsIn (config : Config) (place : Workplace) (file : String) : List ClassRecord :=
  (sourcesIn place file).flatMap (foundIn config)

/-- A file that does not end the analysis: it can be read, and so can its sources if the settings are strict. -/
structure FilePasses (config : Config) (place : Workplace) (file : String) : Prop where
  load : Source.load place file = .ok (sourcesIn place file)
  passes : ∀ source ∈ sourcesIn place file, Passes config source

/-- All bytes in the file are among those seen. -/
def Covers (place : Workplace) (seen : Set Bytes) (file : String) : Prop :=
  ∀ source ∈ sourcesIn place file, source.data ∈ seen

theorem location_of_mem_sourcesIn {file : String} {source : Source} (h : source ∈ sourcesIn place file) :
    source.location = file := by
  cases hload : Source.load place file with
  | error e => simp [sourcesIn, hload, Except.toOption] at h
  | ok sources =>
    have hmem : source ∈ sources := by simpa [sourcesIn, hload, Except.toOption] using h
    obtain ⟨kind, -, hload⟩ := bind_eq_ok_iff.mp hload
    obtain ⟨data, -, hload⟩ := bind_eq_ok_iff.mp hload
    exact Source.location_of_ofFile hload source hmem

theorem location_of_mem_recordsIn (config : Config) (place : Workplace) (file : String) :
    ∀ c ∈ recordsIn config place file, c.location = file := by
  intro c hc
  obtain ⟨source, hsource, hc⟩ := List.mem_flatMap.mp hc
  obtain ⟨e, -, rfl⟩ := mem_foundIn_iff.mp hc
  exact location_of_mem_sourcesIn hsource

/-- The source is a class of this name which the settings accept, and these are its references. -/
def Carries (config : Config) (source : Source) (n : String) (edges : List Access) : Prop :=
  ∃ c, ClassFile.parse source.data = .ok c ∧ c.name = n ∧ config.accepts n = true ∧ c.collect = .ok edges

theorem extract_eq_some_iff {source : Source} {e : Extracted} :
    extract config source.data = .ok (some e) ↔ Carries config source e.name e.edges := by
  rw [extract]
  constructor
  · intro h
    obtain ⟨c, hc, h⟩ := bind_eq_ok_iff.mp h
    have hparse : ClassFile.parse source.data = .ok c := by
      cases hp : ClassFile.parse source.data <;> simp_all [Except.mapError]
    cases haccepts : config.accepts c.name with
    | false => simp [haccepts, pure, Except.pure] at h
    | true =>
      simp only [haccepts, Bool.not_true, Bool.false_eq_true, if_false] at h
      obtain ⟨edges, hedges, h⟩ := bind_eq_ok_iff.mp h
      obtain rfl : ⟨c.name, edges⟩ = e := Option.some.inj (Except.ok.inj h)
      exact ⟨c, hparse, rfl, haccepts, hedges⟩
  · rintro ⟨c, hparse, hname, haccepts, hedges⟩
    rw [hparse]
    simp [Except.mapError, bind, Except.bind, haccepts, hedges, hname, pure, Except.pure]

theorem find?_foundIn_eq_some_iff {source : Source} {n : String} {c : ClassRecord} :
    (foundIn config source).find? (·.name == n) = some c ↔
      ∃ edges, Carries config source n edges ∧ c = ⟨n, source.location, fingerprint source.data, edges⟩ := by
  constructor
  · intro h
    obtain ⟨e, he, rfl⟩ := mem_foundIn_iff.mp (List.mem_of_find?_eq_some h)
    obtain rfl : e.name = n := by simpa [Source.record] using List.find?_some h
    exact ⟨e.edges, extract_eq_some_iff.mp he, rfl⟩
  · rintro ⟨edges, hcarries, rfl⟩
    have he : extract config source.data = .ok (some ⟨n, edges⟩) := extract_eq_some_iff.mpr hcarries
    have hfound : foundIn config source = [source.record ⟨n, edges⟩] := by
      rw [foundIn, recordOf, he]
      rfl
    simp [hfound, Source.record]

theorem find?_foundIn_eq_none_iff {source : Source} {n : String} :
    (foundIn config source).find? (·.name == n) = none ↔ ∀ edges, ¬ Carries config source n edges := by
  simp only [Option.eq_none_iff_forall_ne_some, ne_eq, find?_foundIn_eq_some_iff]
  constructor
  · intro h edges hc
    exact h _ ⟨edges, hc, rfl⟩
  · rintro h _ ⟨edges, hc, rfl⟩
    exact h edges hc

/-- The first class of a name in a file is that of the first source which carries it. -/
theorem firstOf_recordsIn_eq_some_iff {file n : String} {c : ClassRecord} :
    Model.firstOf (recordsIn config place) file n = some c ↔
      ∃ before source after edges, sourcesIn place file = before ++ source :: after ∧
        (∀ earlier ∈ before, ∀ edges, ¬ Carries config earlier n edges) ∧ Carries config source n edges ∧
        c = ⟨n, file, fingerprint source.data, edges⟩ := by
  rw [Model.firstOf, recordsIn, List.find?_flatMap, List.findSome?_eq_some_iff]
  simp only [find?_foundIn_eq_some_iff, find?_foundIn_eq_none_iff]
  have hlocation {before after : List Source} {source : Source} (h : sourcesIn place file = before ++ source :: after) :
      source.location = file := by
    have hmem : source ∈ sourcesIn place file := by simp [h]
    exact location_of_mem_sourcesIn hmem
  constructor
  · rintro ⟨before, source, after, hsources, ⟨edges, hcarries, rfl⟩, hbefore⟩
    exact ⟨before, source, after, edges, hsources, hbefore, hcarries, by rw [hlocation hsources]⟩
  · rintro ⟨before, source, after, edges, hsources, hbefore, hcarries, rfl⟩
    exact ⟨before, source, after, hsources, ⟨edges, hcarries, by rw [hlocation hsources]⟩, hbefore⟩

theorem firstOf_recordsIn_eq_none_iff {file n : String} :
    Model.firstOf (recordsIn config place) file n = none ↔
      ∀ source ∈ sourcesIn place file, ∀ edges, ¬ Carries config source n edges := by
  rw [Model.firstOf, recordsIn, List.find?_flatMap, List.findSome?_eq_none_iff]
  simp only [find?_foundIn_eq_none_iff]

/-- A model that holds some files holds the ones added to it as well. -/
theorem addFiles_holds (hinj : Set.InjOn fingerprint seen) {files done : List String} {m : Model}
    (hfiles : ∀ file ∈ files, FilePasses config place file ∧ Covers place seen file)
    (hm : m.Holds (recordsIn config place) done) :
    ∃ m' : Model, m'.Holds (recordsIn config place) (files ++ done) ∧
      Run.Yields (Remembers config seen) (addFiles config false place m files : Run Analysis (AnalysisError ε) Model)
        (.ok m') := by
  induction files generalizing m done with
  | nil => exact ⟨m, hm, Run.yields_pure m⟩
  | cons file files ih =>
    obtain ⟨hpasses, hcovers⟩ := hfiles file (by simp)
    have hadded := hm.addEach (location_of_mem_recordsIn config place) file
    obtain ⟨m', hm', hyields⟩ := ih (fun f hf => hfiles f (by simp [hf])) hadded
    refine ⟨m', hm'.congr fun f => List.perm_middle.mem_iff, ?_⟩
    rw [addFiles, hpasses.load]
    have hclasses := classesOf_yields (ε := ε) hinj fun source hs => ⟨hcovers source hs, hpasses.passes source hs⟩
    exact hclasses.bind_ok ((addAll_yields m _).bind_ok hyields)

/-- Whatever is remembered, the model of some locations holds the files there. -/
theorem modelOf_holds (hinj : Set.InjOn fingerprint seen) {locations files : List String}
    (hlocated : filesOf config place locations = .ok files)
    (hfiles : ∀ file ∈ files, FilePasses config place file ∧ Covers place seen file) :
    ∃ m : Model, m.Holds (recordsIn config place) files ∧
      Run.Yields (Remembers config seen) (modelOf config false place locations : Run Analysis (AnalysisError ε) Model)
        (.ok m) := by
  obtain ⟨m, hm, hyields⟩ := addFiles_holds (ε := ε) hinj hfiles (Model.holds_empty (recordsIn config place))
  rw [List.append_nil] at hm
  refine ⟨m, hm, ?_⟩
  rw [modelOf, hlocated]
  exact hyields.bind_ok ((notify_yields _).bind_ok (Run.yields_pure m))

theorem mem_filesOf {locations files : List String} (h : filesOf config place locations = .ok files) (file : String) :
    file ∈ files ↔ ∃ location ∈ locations, ∃ found, filesAt config place location = .ok found ∧ file ∈ found := by
  obtain ⟨found, hfound, h⟩ := bind_eq_ok_iff.mp h
  obtain rfl := Except.ok.inj h
  obtain ⟨hleft, hright⟩ := exists_eq_ok_of_mapM hfound
  rw [List.mem_mergeSort, List.mem_flatten]
  constructor
  · rintro ⟨files, hfiles, hfile⟩
    obtain ⟨location, hlocation, heq⟩ := hright files hfiles
    exact ⟨location, hlocation, files, heq, hfile⟩
  · rintro ⟨location, hlocation, files, heq, hfile⟩
    obtain ⟨files', hfiles', heq'⟩ := hleft location hlocation
    obtain rfl := Except.ok.inj (heq.symm.trans heq')
    exact ⟨files, hfiles', hfile⟩

/-- Which files are listed depends only on which locations there are. -/
theorem exists_filesOf_of_mem_iff {locations locations' files : List String}
    (h : filesOf config place locations = .ok files) (hsame : ∀ l, l ∈ locations' ↔ l ∈ locations) :
    ∃ files', filesOf config place locations' = .ok files' ∧ ∀ file, file ∈ files' ↔ file ∈ files := by
  obtain ⟨found, hfound, -⟩ := bind_eq_ok_iff.mp h
  obtain ⟨found', hfound'⟩ : ∃ found', locations'.mapM (filesAt config place) = .ok found' :=
    exists_mapM_eq_ok fun l hl =>
      ((exists_eq_ok_of_mapM hfound).1 l ((hsame l).mp hl)).imp fun _ hfiles => hfiles.2
  have hfiles' : filesOf config place locations' = .ok (found'.flatten.mergeSort fun a b => decide (a ≤ b)) :=
    bind_eq_ok_iff.mpr ⟨found', hfound', rfl⟩
  refine ⟨_, hfiles', fun file => ?_⟩
  rw [mem_filesOf h, mem_filesOf hfiles']
  simp only [hsame]

end Analysis
end Linkage
