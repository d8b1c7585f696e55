import Linkage.Proofs.GraphViews
import Linkage.Proofs.Log

/-!
What an export runs. The rows of the members and then those of the dependencies are cut into pieces of one size, each
of which goes with a statement of its own; the statements are run one after the other up to the first that fails. Both
ends of a dependency are members, so their rows have been run when its row is.
-/
namespace Linkage
namespace Neo4j

/-! Cutting rows into pieces. -/

section

variable {α : Type}

/-- The pieces are the rows in their order. None is empty, and all but the last are of the given size, which the last
does not exceed. -/
structure Cut (size : Nat) (rows : List α) (pieces : List (List α)) : Prop where
  whole : pieces.flatten = rows
  nonempty : ∀ piece ∈ pieces, piece ≠ []
  bounded : ∀ piece ∈ pieces, piece.length ≤ size
  full : ∀ piece ∈ pieces.dropLast, piece.length = size

theorem batches_eq_nil_iff {size : Nat} {rows : List α} : batches size rows = [] ↔ rows = [] := by
  cases rows <;> simp [batches]

theorem batches_of_ne_nil {size : Nat} (hsize : 0 < size) {rows : List α} (h : rows ≠ []) :
    batches size rows = rows.take size :: batches size (rows.drop size) := by
  obtain ⟨size, rfl⟩ := Nat.exists_eq_add_of_lt hsize
  cases rows with
  | nil => contradiction
  | cons row rest => simp [batches]

theorem cut_batches {size : Nat} (hsize : 0 < size) (rows : List α) : Cut size rows (batches size rows) := by
  induction rows using batches.induct size with
  | case1 => constructor <;> simp [batches]
  | case2 row rest ih =>
    have hlength : (row :: rest.take (size - 1)).length ≤ size := by
      simp only [List.length_cons, List.length_take]
      omega
    refine ⟨flatten_batches size (row :: rest), ?_, ?_, ?_⟩
    · simpa [batches] using ih.nonempty
    · rw [batches]
      exact List.forall_mem_cons.mpr ⟨hlength, ih.bounded⟩
    · by_cases hrest : rest.drop (size - 1) = []
      · simp [batches, hrest]
      · have hmore : batches size (rest.drop (size - 1)) ≠ [] := by simpa [batches_eq_nil_iff] using hrest
        have hfull : (row :: rest.take (size - 1)).length = size := by
          simp only [List.drop_eq_nil_iff] at hrest
          simp only [List.length_cons, List.length_take]
          omega
        rw [batches, List.dropLast_cons_of_ne_nil hmore]
        exact List.forall_mem_cons.mpr ⟨hfull, ih.full⟩

/-- Where the pieces start and stop, in arithmetic that wraps around at 64 bits: from `start` on, each piece starts
`size` behind the one before and stops there or at `count`. At most `fuel` pieces are listed. -/
def bounds (size count : Int64) : Nat → Int64 → List (Int64 × Int64)
  | 0, _ => []
  | fuel + 1, start =>
    if start < count then
      let stop := start + size
      (start, if count < stop then count else stop) :: bounds size count fuel stop
    else []

/-- What 64-bit arithmetic makes of the rows: the same pieces, each within the rows and found without overflow, however
long the search is allowed to be. -/
structure Indexed (size : Nat) (rows : List α) : Prop where
  pieces (fuel : Nat) : rows.length ≤ fuel →
    (bounds (.ofNat size) (.ofNat rows.length) fuel 0).map (fun b => rows.extract b.1.toInt.toNat b.2.toInt.toNat) =
      batches size rows
  within (fuel : Nat) : ∀ b ∈ bounds (.ofNat size) (.ofNat rows.length) fuel 0,
    0 ≤ b.1.toInt ∧ b.1.toInt < b.2.toInt ∧ b.2.toInt ≤ rows.length
  exact (fuel : Nat) : ∀ b ∈ bounds (.ofNat size) (.ofNat rows.length) fuel 0, b.1.toInt + size < 2 ^ 63

theorem toInt_add_of_lt {a b : Int64} (ha : 0 ≤ a.toInt) (hb : 0 ≤ b.toInt) (h : a.toInt + b.toInt < 2 ^ 63) :
    (a + b).toInt = a.toInt + b.toInt := by
  rw [Int64.toInt_add]
  exact Int.bmod_eq_of_le (by omega) (by omega)

section

variable {size count start : Int64} {rows : List α} {k : Nat}

/-- One turn of the search. The start is zero or at least as large as the size, so that their sum stays below twice the
number of rows or is the size itself. -/
theorem bounds_succ (hsize : 0 < size.toInt) (hcount : count.toInt = rows.length) (hlimit : rows.length ≤ 2 ^ 62)
    (hstart : start.toInt = k) (hk : k = 0 ∨ size.toInt ≤ k) (hlt : k < rows.length) :
    ∃ stop next : Int64, stop.toInt = min (k + size.toInt) rows.length ∧ next.toInt = k + size.toInt ∧
      k + size.toInt < 2 ^ 63 ∧
      ∀ fuel, bounds size count (fuel + 1) start = (start, stop) :: bounds size count fuel next := by
  have hsum : (k : Int) + size.toInt < 2 ^ 63 := by
    have := size.toInt_lt
    omega
  have hnext : (start + size).toInt = k + size.toInt := by
    rw [toInt_add_of_lt (by omega) (by omega) (by omega), hstart]
  have hbefore : start < count := by
    rw [Int64.lt_iff_toInt_lt]
    omega
  refine ⟨if count < start + size then count else start + size, start + size, ?_, hnext, hsum, fun fuel => ?_⟩
  · simp only [Int64.lt_iff_toInt_lt]
    split <;> omega
  · rw [bounds, if_pos hbefore]

theorem bounds_of_le (hcount : count.toInt = rows.length) (hstart : start.toInt = k) (hle : rows.length ≤ k)
    (fuel : Nat) : bounds size count fuel start = [] := by
  have hbefore : ¬ start < count := by
    rw [Int64.lt_iff_toInt_lt]
    omega
  cases fuel with
  | zero => rfl
  | succ fuel => rw [bounds, if_neg hbefore]

theorem mem_bounds (hsize : 0 < size.toInt) (hcount : count.toInt = rows.length) (hlimit : rows.length ≤ 2 ^ 62)
    (hstart : start.toInt = k) (hk : k = 0 ∨ size.toInt ≤ k) (fuel : Nat) :
    ∀ b ∈ bounds size count fuel start, 0 ≤ b.1.toInt ∧ b.1.toInt < b.2.toInt ∧ b.2.toInt ≤ rows.length ∧
      b.1.toInt + size.toInt < 2 ^ 63 := by
  induction fuel generalizing start k with
  | zero => simp [bounds]
  | succ fuel ih =>
    by_cases hlt : k < rows.length
    · obtain ⟨stop, next, hstop, hnext, hsum, hturn⟩ := bounds_succ hsize hcount hlimit hstart hk hlt
      obtain ⟨n, hn⟩ := Int.eq_ofNat_of_zero_le (show 0 ≤ k + size.toInt by omega)
      rw [hturn]
      refine List.forall_mem_cons.mpr ⟨?_, ih (hnext.trans hn) (by omega)⟩
      simp only [hstart, hstop]
      omega
    · rw [bounds_of_le hcount hstart (by omega)]
      simp

theorem map_bounds (hsize : 0 < size.toInt) (hcount : count.toInt = rows.length) (hlimit : rows.length ≤ 2 ^ 62)
    (hstart : start.toInt = k) (hk : k = 0 ∨ size.toInt ≤ k) {fuel : Nat} (hfuel : rows.length ≤ k + fuel) :
    (bounds size count fuel start).map (fun b => rows.extract b.1.toInt.toNat b.2.toInt.toNat) =
      batches size.toInt.toNat (rows.drop k) := by
  induction fuel generalizing start k with
  | zero => simp [bounds, batches, List.drop_eq_nil_of_le (by omega : rows.length ≤ k)]
  | succ fuel ih =>
    by_cases hlt : k < rows.length
    · obtain ⟨stop, next, hstop, hnext, -, hturn⟩ := bounds_succ hsize hcount hlimit hstart hk hlt
      obtain ⟨n, hn⟩ := Int.eq_ofNat_of_zero_le (show 0 ≤ k + size.toInt by omega)
      have hrest : (rows.drop k).drop size.toInt.toNat = rows.drop n := by
        rw [List.drop_drop]
        congr 1
        omega
      have hpiece : rows.extract k stop.toInt.toNat = (rows.drop k).take size.toInt.toNat := by
        rw [List.extract_eq_take_drop, List.take_eq_take_iff, List.length_drop]
        omega
      have hsome : rows.drop k ≠ [] := by simpa using hlt
      rw [hturn, List.map_cons, ih (hnext.trans hn) (by omega) (by omega), batches_of_ne_nil (by omega) hsome, hrest,
        hstart, Int.toNat_natCast, hpiece]
    · rw [bounds_of_le hcount hstart (by omega), List.drop_eq_nil_of_le (by omega)]
      simp [batches]

/-- As many rows as a 64-bit machine can point to are cut without overflow. -/
theorem indexed_of_le {size : Nat} (hsize : 0 < size) (hfits : size < 2 ^ 63) (hlimit : rows.length ≤ 2 ^ 62) :
    Indexed size rows := by
  have hsize' : (Int64.ofNat size).toInt = size := Int64.toInt_ofNat_of_lt hfits
  have hcount : (Int64.ofNat rows.length).toInt = rows.length := Int64.toInt_ofNat_of_lt (by omega)
  have hpos : 0 < (Int64.ofNat size).toInt := by omega
  have hstart : (0 : Int64).toInt = (0 : Nat) := rfl
  have hmem (fuel : Nat) := mem_bounds hpos hcount hlimit hstart (.inl rfl) fuel
  rw [hsize'] at hmem
  refine ⟨fun fuel hfuel => ?_, fun fuel b hb => ?_, fun fuel b hb => ?_⟩
  · rw [map_bounds hpos hcount hlimit hstart (.inl rfl) (by omega), hsize', Int.toNat_natCast, List.drop_zero]
  · obtain ⟨h₁, h₂, h₃, -⟩ := hmem fuel b hb
    exact ⟨h₁, h₂, h₃⟩
  · exact (hmem fuel b hb).2.2.2

end

end

/-! Running statements. -/

section

variable {σ ε : Type} {run : Statement → Run σ ε Unit} {s s₁ s₂ : σ} {e : ε}

theorem runAll_cons_ok {phase : Phase} {statement : Statement} (h : run statement s = (.ok (), s₁))
    (rest : List (Phase × Statement)) : runAll run ((phase, statement) :: rest) s = runAll run rest s₁ := by
  rw [runAll, Run.bind_apply]
  simp only [h]

theorem runAll_cons_error {phase : Phase} {statement : Statement} (h : run statement s = (.error e, s₁))
    (rest : List (Phase × Statement)) : runAll run ((phase, statement) :: rest) s = (.error ⟨phase, e⟩, s₁) := by
  rw [runAll, Run.bind_apply]
  simp only [h]

theorem logged_apply {r : Except ε Unit} {statement : Statement} (h : run statement s = (r, s₁))
    (log : List Statement) : Run.logged run statement ⟨s, log⟩ = (r, ⟨s₁, log ++ [statement]⟩) := by
  simp [Run.logged, h]

/-- Statements that succeed are run, and what follows them goes on from there. -/
theorem runAll_logged_append {before : List (Phase × Statement)} (h : (before.map Prod.snd).forM run s = (.ok (), s₁))
    (after : List (Phase × Statement)) (log : List Statement) :
    runAll (Run.logged run) (before ++ after) ⟨s, log⟩ =
      runAll (Run.logged run) after ⟨s₁, log ++ before.map Prod.snd⟩ := by
  induction before generalizing s log with
  | nil =>
    cases h
    simp
  | cons first before ih =>
    obtain ⟨phase, statement⟩ := first
    obtain ⟨_, s', hfirst, hrest⟩ := Run.bind_eq_ok h
    rw [List.cons_append, runAll_cons_ok (logged_apply hfirst log), ih hrest]
    simp

/-- The statement that fails is the last that is run. -/
theorem runAll_logged_of_error {statements : List (Phase × Statement)} {k : Nat} {phase : Phase} {statement : Statement}
    (hk : statements[k]? = some (phase, statement))
    (hbefore : ((statements.map Prod.snd).take k).forM run s = (.ok (), s₁))
    (hfail : run statement s₁ = (.error e, s₂)) :
    runAll (Run.logged run) statements ⟨s, []⟩ =
      (.error ⟨phase, e⟩, ⟨s₂, (statements.map Prod.snd).take (k + 1)⟩) := by
  obtain ⟨hlt, hat⟩ := List.getElem?_eq_some_iff.mp hk
  have hsplit : statements = statements.take k ++ (phase, statement) :: statements.drop (k + 1) := by
    rw [← hat, List.getElem_cons_drop, List.take_append_drop]
  have hlast : (statements.map Prod.snd)[k]? = some statement := by simp [hk]
  rw [← List.map_take] at hbefore
  have hrun := runAll_logged_append hbefore ((phase, statement) :: statements.drop (k + 1)) []
  rw [← hsplit, runAll_cons_error (logged_apply hfail _)] at hrun
  rw [hrun, List.take_add_one, hlast, List.map_take]
  rfl

/-- Runners that never fail run all they are given. -/
theorem forM_eq_ok (h : ∀ statement s, (run statement s).1 = .ok ()) (statements : List Statement) (s : σ) :
    ∃ s', statements.forM run s = (.ok (), s') := by
  induction statements generalizing s with
  | nil => exact ⟨s, rfl⟩
  | cons statement statements ih =>
    obtain ⟨s', hs'⟩ := ih (run statement s).2
    have hfirst : run statement s = (.ok (), (run statement s).2) := Prod.ext (h statement s) rfl
    exact ⟨s', (Run.bind_ok hfirst).trans hs'⟩

end

/-! The statements of an export. -/

namespace Phase

/-- The queries that the statements of a part are made of. -/
def queries : Phase → List String
  | .clean => [cleanQuery]
  | .index => indexQueries
  | .members => [memberQuery]
  | .dependencies => [dependencyQuery]

end Phase

/-- What is run before any dependency, once the rows of the members are cut. -/
def opening (clean : Bool) (members : List (List Row)) : List Statement :=
  (if clean then [⟨cleanQuery, none⟩] else []) ++ indexQueries.map (fun query => ⟨query, none⟩) ++
    members.map fun batch => ⟨memberQuery, some batch⟩

/-- What is run in an export, once the rows are cut. -/
def script (clean : Bool) (members dependencies : List (List Row)) : List Statement :=
  opening clean members ++ dependencies.map fun batch => ⟨dependencyQuery, some batch⟩

theorem map_snd_statements (options : Options) (g : ExportGraph) :
    (statements options g).map Prod.snd = script options.clean (batches options.batchSize (g.nodes.map .member))
      (batches options.batchSize (g.links.map .dependency)) := by
  cases hclean : options.clean <;> simp [statements, script, opening, hclean, Function.comp_def]

theorem query_mem_queries {options : Options} {g : ExportGraph} {phase : Phase} {statement : Statement}
    (h : (phase, statement) ∈ statements options g) : statement.query ∈ phase.queries := by
  simp only [statements, List.mem_append, List.mem_map, Prod.mk.injEq] at h
  rcases h with ((h | ⟨query, hquery, rfl, rfl⟩) | ⟨batch, -, rfl, rfl⟩) | ⟨batch, -, rfl, rfl⟩
  · split at h
    · simp_all [Phase.queries]
    · simp at h
  · exact hquery
  · simp [Phase.queries]
  · simp [Phase.queries]

/-- All rows of some statements, in the order in which they are run. -/
def rowsOf (statements : List Statement) : List Row := statements.flatMap fun statement => statement.rows.getD []

/-- When the row of a dependency is run, the rows of the members at both its ends have been run. -/
def Closed (statements : List Statement) : Prop :=
  ∀ k statement, statements[k]? = some statement → ∀ link, Row.dependency link ∈ statement.rows.getD [] →
    ∃ source target, Row.member source ∈ rowsOf (statements.take k) ∧ Row.member target ∈ rowsOf (statements.take k) ∧
      source.id = link.source ∧ target.id = link.target

theorem rowsOf_opening (clean : Bool) (members : List (List Row)) :
    rowsOf (opening clean members) = members.flatten := by
  cases clean <;> simp [rowsOf, opening, indexQueries, List.flatMap_map, List.flatMap_id']

theorem closed_script {clean : Bool} {members dependencies : List (List Row)} {nodes : List ExportNode}
    {links : List ExportLink} (hmembers : members.flatten = nodes.map .member)
    (hdependencies : dependencies.flatten = links.map .dependency)
    (hends : ∀ link ∈ links, link.source ∈ nodes.map (·.id) ∧ link.target ∈ nodes.map (·.id)) :
    Closed (script clean members dependencies) := by
  intro k statement hk link hlink
  have hnode {id : String} (h : id ∈ nodes.map (·.id)) :
      ∃ node, Row.member node ∈ rowsOf (opening clean members) ∧ node.id = id := by
    obtain ⟨node, hnode, rfl⟩ := List.mem_map.mp h
    exact ⟨node, by simpa [rowsOf_opening, hmembers] using hnode, rfl⟩
  by_cases hlt : k < (opening clean members).length
  · -- only rows of members are run there
    have hmem : statement ∈ opening clean members := by
      rw [script, List.getElem?_append_left hlt] at hk
      exact List.mem_of_getElem? hk
    have hrow : Row.dependency link ∈ rowsOf (opening clean members) := List.mem_flatMap.mpr ⟨statement, hmem, hlink⟩
    rw [rowsOf_opening, hmembers] at hrow
    simp at hrow
  · have hrow : Row.dependency link ∈ dependencies.flatten := by
      rw [script, List.getElem?_append_right (by omega), List.getElem?_map] at hk
      obtain ⟨batch, hbatch, rfl⟩ := Option.map_eq_some_iff.mp hk
      exact List.mem_flatten.mpr ⟨batch, List.mem_of_getElem? hbatch, hlink⟩
    have hlinks : link ∈ links := by
      rw [hdependencies] at hrow
      simpa using hrow
    have hbefore (row : Row) (h : row ∈ rowsOf (opening clean members)) :
        row ∈ rowsOf ((script clean members dependencies).take k) := by
      rw [script, List.take_append, List.take_of_length_le (by omega), rowsOf, List.flatMap_append]
      exact List.mem_append_left _ h
    obtain ⟨source, hsource, hsourceId⟩ := hnode (hends link hlinks).1
    obtain ⟨target, htarget, htargetId⟩ := hnode (hends link hlinks).2
    exact ⟨source, target, hbefore _ hsource, hbefore _ htarget, hsourceId, htargetId⟩

end Neo4j

namespace Model

/-- Both ends of a link are nodes. -/
theorem ends_mem_nodes (m : Model) : ∀ link ∈ m.exportGraph.links,
    link.source ∈ m.exportGraph.nodes.map (·.id) ∧ link.target ∈ m.exportGraph.nodes.map (·.id) := by
  intro link hlink
  obtain ⟨access, haccess, rfl⟩ := List.mem_map.mp hlink
  have hmentioned (member : Member) (h : member = access.source ∨ member = access.dest) :
      member.text ∈ m.exportGraph.nodes.map (·.id) := by
    have hmem : member ∈ m.mentioned :=
      List.mem_flatMap.mpr ⟨access, List.mem_eraseDups.mp haccess, by simpa using h⟩
    rw [exportGraph_ids]
    exact (mem_map_sortDistinctBy Member.text).mpr (List.mem_map_of_mem hmem)
  exact ⟨hmentioned _ (.inl rfl), hmentioned _ (.inr rfl)⟩

end Model

namespace Neo4j

namespace Options

theorem batchSize_ofRequest (batch : Int64) (clean : Bool) :
    ((ofRequest batch.toInt clean).batchSize : Int) = if 0 < batch then batch.toInt else 1000 := by
  have hzero : 0 < batch ↔ 0 < batch.toInt := Int64.lt_iff_toInt_lt
  simp only [ofRequest, hzero]
  split
  · omega
  · rfl

end Options

variable {σ ε : Type}

/-- An export runs the clean statement if asked to, the two index statements, the rows of the nodes and then those of
the links. The rows are cut by the size that was asked for, or by a thousand if that is not positive; lists as long as
memory may hold are cut without overflow. A dependency is run after both its ends. A runner that never fails is given
all the statements. One that fails is given those up to the failing one, and its error is told with the part that
failed. -/
theorem load_exportGraph (m : Model) (batch : Int64) (clean : Bool) (run : Statement → Run σ ε Unit) (s : σ) :
    ∃ (size : Nat) (members dependencies : List (List Row)),
      (size : Int) = (if 0 < batch then batch.toInt else 1000) ∧
      Cut size (m.exportGraph.nodes.map .member) members ∧
      Cut size (m.exportGraph.links.map .dependency) dependencies ∧
      (m.exportGraph.nodes.length ≤ 2 ^ 62 → Indexed size (m.exportGraph.nodes.map Row.member)) ∧
      (m.exportGraph.links.length ≤ 2 ^ 62 → Indexed size (m.exportGraph.links.map Row.dependency)) ∧
      Closed (script clean members dependencies) ∧
      ((∀ statement s, (run statement s).1 = .ok ()) →
        ∃ s', load (Run.logged run) (.ofRequest batch.toInt clean) m.exportGraph ⟨s, []⟩ =
          (.ok (), ⟨s', script clean members dependencies⟩)) ∧
      ∀ k statement e s₁ s₂, (script clean members dependencies)[k]? = some statement →
        ((script clean members dependencies).take k).forM run s = (.ok (), s₁) →
        run statement s₁ = (.error e, s₂) →
        ∃ phase : Phase, statement.query ∈ phase.queries ∧
          load (Run.logged run) (.ofRequest batch.toInt clean) m.exportGraph ⟨s, []⟩ =
            (.error ⟨phase, e⟩, ⟨s₂, (script clean members dependencies).take (k + 1)⟩) ∧
          ∀ text, (⟨phase, e⟩ : ExportError ε).message text = phase.failure ++ ": " ++ text e := by
  have hsize := Options.batchSize_ofRequest batch clean
  have hplan := map_snd_statements (.ofRequest batch.toInt clean) m.exportGraph
  generalize hopts : Options.ofRequest batch.toInt clean = options at hsize hplan
  have hclean : options.clean = clean := by rw [← hopts]; rfl
  rw [hclean] at hplan
  have hpos : 0 < options.batchSize ∧ options.batchSize < 2 ^ 63 := by
    have hlt := batch.toInt_lt
    have hzero : 0 < batch ↔ 0 < batch.toInt := Int64.lt_iff_toInt_lt
    simp only [hzero] at hsize
    split at hsize <;> omega
  have hmembers := cut_batches hpos.1 (m.exportGraph.nodes.map Row.member)
  have hdependencies := cut_batches hpos.1 (m.exportGraph.links.map Row.dependency)
  refine ⟨options.batchSize, _, _, hsize, hmembers, hdependencies, ?_, ?_, ?_, ?_, ?_⟩
  · intro hlimit
    exact indexed_of_le hpos.1 hpos.2 (by simpa using hlimit)
  · intro hlimit
    exact indexed_of_le hpos.1 hpos.2 (by simpa using hlimit)
  · exact closed_script hmembers.whole hdependencies.whole m.ends_mem_nodes
  · intro hnever
    obtain ⟨s', hs'⟩ := forM_eq_ok hnever ((statements options m.exportGraph).map Prod.snd) s
    have hrun := runAll_logged_append hs' [] []
    rw [List.append_nil, List.nil_append, hplan] at hrun
    exact ⟨s', hrun⟩
  · intro k statement e s₁ s₂ hk hbefore hfail
    rw [← hplan] at hk hbefore ⊢
    rw [List.getElem?_map] at hk
    obtain ⟨⟨phase, statement⟩, hat, rfl⟩ := Option.map_eq_some_iff.mp hk
    exact ⟨phase, query_mem_queries (List.mem_of_getElem? hat), runAll_logged_of_error hat hbefore hfail, fun _ => rfl⟩

/-- A model with four members and three references, two of which are the same. -/
def twoCalls : Model :=
  (Model.empty.add ⟨"p", "p.class", 7,
    [⟨⟨"p", "m"⟩, ⟨"q", "f"⟩⟩, ⟨⟨"p", "m"⟩, ⟨"q", "f"⟩⟩, ⟨⟨"p", "n"⟩, ⟨"q", "g"⟩⟩]⟩).1

/-- Takes as many statements as its state says and refuses the next. -/
def countdown : Statement → Run Nat String Unit := fun _ n =>
  match n with
  | 0 => (.error "refused", 0)
  | n + 1 => (.ok (), n)

/-- Cut by three, the four members and two links of `twoCalls` fill three statements behind the two for the indexes. A
runner that takes one statement refuses the second index. -/
theorem twoCalls_load : twoCalls.exportGraph.nodes.length = 4 ∧ twoCalls.exportGraph.links.length = 2 ∧
    (∃ members dependencies : List (List Row),
      Cut 3 (twoCalls.exportGraph.nodes.map .member) members ∧
      Cut 3 (twoCalls.exportGraph.links.map .dependency) dependencies ∧
      Indexed 3 (twoCalls.exportGraph.nodes.map Row.member) ∧
      Closed (script false members dependencies) ∧
      load (Run.logged fun _ => (pure () : Run Unit String Unit)) (.ofRequest 3 false) twoCalls.exportGraph ⟨(), []⟩ =
        (.ok (), ⟨(), script false members dependencies⟩)) ∧
    ∃ members dependencies : List (List Row),
      load (Run.logged countdown) (.ofRequest 3 false) twoCalls.exportGraph ⟨1, []⟩ =
        (.error ⟨.index, "refused"⟩, ⟨0, (script false members dependencies).take 2⟩) := by
  have hnodes : twoCalls.exportGraph.nodes.length = 4 := by cbv
  have hlinks : twoCalls.exportGraph.links.length = 2 := by decide
  refine ⟨hnodes, hlinks, ?_, ?_⟩
  · obtain ⟨size, members, dependencies, hsize, hmembers, hdependencies, hindexed, -, hclosed, hall, -⟩ :=
      load_exportGraph twoCalls 3 false (fun _ => (pure () : Run Unit String Unit)) ()
    obtain rfl : size = 3 := by
      have hthree : (if (0 : Int64) < 3 then (3 : Int64).toInt else 1000) = 3 := by decide
      rw [hthree] at hsize
      exact_mod_cast hsize
    obtain ⟨_, hload⟩ := hall fun _ _ => rfl
    exact ⟨members, dependencies, hmembers, hdependencies, hindexed (by omega), hclosed, hload⟩
  · obtain ⟨-, members, dependencies, -, -, -, -, -, -, -, hfail⟩ := load_exportGraph twoCalls 3 false countdown 1
    obtain ⟨phase, hphase, hload, -⟩ := hfail 1 _ "refused" 0 0 rfl rfl rfl
    obtain rfl : phase = .index := by
      cases phase <;> revert hphase <;> decide
    exact ⟨members, dependencies, hload⟩

end Neo4j
end Linkage
