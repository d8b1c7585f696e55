import Linkage.Proofs.ByteOrder
import Linkage.Proofs.GraphViews
import Linkage.Proofs.Merging

/-!
The exported graph counts the references. A pass over the references can gather it: the first member of each text
becomes a node, and each reference is listed once, with a number that grows whenever it comes again. After any number of
references, what the pass has gathered tells of exactly these. Put in order at the end, it is the exported graph.
-/
namespace Linkage

/-! Hexadecimal texts. -/

/-- The text has the lower-case hexadecimal digits of the number, and no zero before them. -/
structure Hexadecimal (n : Nat) (text : String) : Prop where
  lowerCase : ∀ c ∈ text.toList, c ∈ "0123456789abcdef".toList
  value : Text.natural? 16 text.toList = some n
  lead : text.toList.head? = some '0' → text = "0"

namespace Hexadecimal

/-- One more digit after a number. -/
def addDigit (n : Nat) (c : Char) : Option Nat :=
  (Text.digitValue? c).bind fun d => if d < 16 then some (n * 16 + d) else none

theorem natural?_eq {cs : List Char} (h : cs ≠ []) : Text.natural? 16 cs = cs.foldlM addDigit 0 := by
  simp [Text.natural?, h]
  rfl

theorem addDigit_digitChar (n : Nat) {d : Nat} (h : d < 16) : addDigit n d.digitChar = some (n * 16 + d) := by
  have hvalue : ∀ d < 16, Text.digitValue? d.digitChar = some d := by decide
  simp [addDigit, hvalue d h, h]

/-- A lower-case digit is the one that its value is written with. -/
theorem eq_digitChar {n k : Nat} {c : Char} (hc : c ∈ "0123456789abcdef".toList) (h : addDigit n c = some k) :
    ∃ d < 16, c = d.digitChar ∧ k = n * 16 + d := by
  have halphabet : "0123456789abcdef".toList = (List.range 16).map Nat.digitChar := by decide
  rw [halphabet] at hc
  obtain ⟨d, hd, rfl⟩ := List.mem_map.mp hc
  have hd := List.mem_range.mp hd
  rw [addDigit_digitChar n hd, Option.some.injEq] at h
  exact ⟨d, hd, rfl, h.symm⟩

/-- A number is a digit, or a digit after a positive number. -/
theorem digit_induction {motive : Nat → Prop} (single : ∀ d < 16, motive d)
    (next : ∀ n d, 0 < n → d < 16 → motive n → motive (n * 16 + d)) (n : Nat) : motive n := by
  induction n using Nat.strongRecOn with
  | ind n ih =>
    by_cases h : n < 16
    · exact single n h
    · have hn := next (n / 16) (n % 16) (by omega) (Nat.mod_lt n (by decide)) (ih (n / 16) (by omega))
      rwa [Nat.div_add_mod'] at hn

theorem toDigits_next {n d : Nat} (hn : 0 < n) (hd : d < 16) :
    Nat.toDigits 16 (n * 16 + d) = Nat.toDigits 16 n ++ [d.digitChar] := by
  rw [Nat.mul_comm, ← Nat.toDigits_append_toDigits (by decide) hn hd, Nat.toDigits_of_lt_base hd]

theorem foldlM_toDigits (n : Nat) : (Nat.toDigits 16 n).foldlM addDigit 0 = some n := by
  induction n using digit_induction with
  | single d hd =>
    rw [Nat.toDigits_of_lt_base hd]
    simpa using addDigit_digitChar 0 hd
  | next n d hn hd ih =>
    rw [toDigits_next hn hd, List.foldlM_append, ih]
    simpa using addDigit_digitChar n hd

theorem mem_toDigits {n : Nat} {c : Char} (h : c ∈ Nat.toDigits 16 n) : c ∈ "0123456789abcdef".toList := by
  have hdigit : ∀ d < 16, d.digitChar ∈ "0123456789abcdef".toList := by decide
  induction n using digit_induction with
  | single d hd =>
    rw [Nat.toDigits_of_lt_base hd, List.mem_singleton] at h
    exact h ▸ hdigit d hd
  | next n d hn hd ih =>
    rw [toDigits_next hn hd, List.mem_append, List.mem_singleton] at h
    rcases h with h | h
    · exact ih h
    · exact h ▸ hdigit d hd

theorem head?_toDigits {n : Nat} (h : (Nat.toDigits 16 n).head? = some '0') : n = 0 := by
  have hzero : ∀ d < 16, d.digitChar = '0' → d = 0 := by decide
  induction n using digit_induction with
  | single d hd =>
    rw [Nat.toDigits_of_lt_base hd] at h
    exact hzero d hd (by simpa using h)
  | next n d hn hd ih =>
    rw [toDigits_next hn hd, List.head?_append_of_ne_nil _ Nat.toDigits_ne_nil] at h
    exact absurd (ih h) (Nat.pos_iff_ne_zero.mp hn)

/-- Digits without a zero before them are those of their number. -/
theorem eq_toDigits {cs : List Char} {n : Nat} (hne : cs ≠ []) (hlower : ∀ c ∈ cs, c ∈ "0123456789abcdef".toList)
    (hvalue : cs.foldlM addDigit 0 = some n) (hlead : cs.head? = some '0' → cs = ['0']) : cs = Nat.toDigits 16 n := by
  induction cs using List.reverseRecOn generalizing n with
  | nil => contradiction
  | append_singleton before c ih =>
    rw [List.foldlM_append, Option.bind_eq_bind, Option.bind_eq_some_iff] at hvalue
    obtain ⟨k, hk, hlast⟩ := hvalue
    obtain ⟨d, hd, rfl, rfl⟩ := eq_digitChar (hlower c (by simp)) (by simpa using hlast)
    by_cases hbefore : before = []
    · obtain rfl : 0 = k := by simpa [hbefore] using hk
      simp [hbefore, Nat.toDigits_of_lt_base hd]
    · have hnonzero : before.head? ≠ some '0' := by
        intro hzero
        have := hlead (by rw [List.head?_append_of_ne_nil _ hbefore, hzero])
        simp_all [List.append_eq_singleton_iff]
      have hdigits := ih hbefore (fun c hc => hlower c (by simp [hc])) hk fun hzero => absurd hzero hnonzero
      have hpos : 0 < k := by
        rcases Nat.eq_zero_or_pos k with rfl | hpos
        · exact absurd (by rw [hdigits]; rfl) hnonzero
        · exact hpos
      rw [toDigits_next hpos hd, ← hdigits]

end Hexadecimal

/-- A number has one hexadecimal text. -/
theorem hexadecimal_iff {n : Nat} {text : String} : Hexadecimal n text ↔ text = String.ofList (Nat.toDigits 16 n) := by
  constructor
  · rintro ⟨hlower, hvalue, hlead⟩
    have hne : text.toList ≠ [] := by
      intro hempty
      simp [hempty, Text.natural?] at hvalue
    rw [Hexadecimal.natural?_eq hne] at hvalue
    have hdigits := Hexadecimal.eq_toDigits hne hlower hvalue fun h => by rw [hlead h]; rfl
    rw [← hdigits, String.ofList_toList]
  · rintro rfl
    refine ⟨fun c hc => Hexadecimal.mem_toDigits (by simpa using hc), ?_, fun h => ?_⟩
    · simpa [Hexadecimal.natural?_eq Nat.toDigits_ne_nil] using Hexadecimal.foldlM_toDigits n
    · obtain rfl := Hexadecimal.head?_toDigits (by simpa using h)
      rfl

/-! Lists without repeats, one element later. -/

section

variable {α : Type} [BEq α] [LawfulBEq α]

theorem eraseDups_concat (xs : List α) (a : α) :
    (xs ++ [a]).eraseDups = if xs.contains a then xs.eraseDups else xs.eraseDups ++ [a] := by
  rw [List.eraseDups_append]
  by_cases h : a ∈ xs <;> simp [List.removeAll, h, List.eraseDups_cons]

/-- What is left without repeats stands in the order of its first places. -/
theorem pairwise_idxOf_eraseDups (xs : List α) : xs.eraseDups.Pairwise fun a b => xs.idxOf a < xs.idxOf b := by
  induction xs using List.reverseRecOn with
  | nil => simp
  | append_singleton xs a ih =>
    have hbefore : xs.eraseDups.Pairwise fun b c => (xs ++ [a]).idxOf b < (xs ++ [a]).idxOf c := by
      refine ih.imp_of_mem fun hb hc hlt => ?_
      rwa [List.idxOf_append_of_mem (List.mem_eraseDups.mp hb), List.idxOf_append_of_mem (List.mem_eraseDups.mp hc)]
    rw [eraseDups_concat]
    split
    · exact hbefore
    · rename_i hnew
      have hnew : a ∉ xs := by simpa using hnew
      refine List.pairwise_append.mpr ⟨hbefore, List.pairwise_singleton _ a, fun b hb c hc => ?_⟩
      have hb : b ∈ xs := List.mem_eraseDups.mp hb
      obtain rfl : c = a := by simpa using hc
      have hlt := List.idxOf_lt_length_iff.mpr hb
      rw [List.idxOf_append_of_mem hb, List.idxOf_append_of_notMem hnew]
      omega

end

/-! The pass over the references. -/

/-- What a pass has gathered: the nodes in the order in which their texts came up, how often each reference was met, and
the references in the order in which they were met first. -/
structure Tally where
  nodes : List ExportNode
  counts : Access → Nat
  order : List Access

namespace Tally

def empty : Tally := ⟨[], fun _ => 0, []⟩

/-- Makes a node of a member, unless there is one with its text. -/
def mention (m : Model) (t : Tally) (a : Member) : Tally :=
  if a.text ∈ t.nodes.map (·.id) then t else { t with nodes := t.nodes ++ [m.exportNode a] }

/-- Counts a reference, and lists it if it was not met before. -/
def count (t : Tally) (a : Access) : Tally :=
  { t with
    counts := Function.update t.counts a (t.counts a + 1)
    order := if t.counts a = 0 then t.order ++ [a] else t.order }

def take (m : Model) (t : Tally) (a : Access) : Tally := ((t.mention m a.source).mention m a.dest).count a

def ofModel (m : Model) : Tally := m.edges.foldl (take m) empty

/-- The nodes by rising text, and the references with their numbers. -/
def graph (t : Tally) : ExportGraph where
  nodes := t.nodes.mergeSort fun a b => decide (a.id ≤ b.id)
  links := t.order.map fun a => ⟨a, t.counts a⟩

/-- The nodes are those of the first members with each text. -/
structure Nodes (m : Model) (mentioned : List Member) (nodes : List ExportNode) : Prop where
  made : ∀ n ∈ nodes, n = m.exportNode n.member
  first : ∀ a, m.exportNode a ∈ nodes ↔ mentioned.find? (·.text == a.text) = some a
  distinct : (nodes.map (·.id)).Nodup

/-- The tally tells of these references. -/
structure Tells (m : Model) (es : List Access) (t : Tally) : Prop where
  nodes : Nodes m (es.flatMap fun a => [a.source, a.dest]) t.nodes
  counts : ∀ a, t.counts a = es.count a
  order : t.order = es.eraseDups

variable {m : Model} {t : Tally}

theorem Nodes.mem_ids {mentioned : List Member} {nodes : List ExportNode} (h : Nodes m mentioned nodes) (v : String) :
    v ∈ nodes.map (·.id) ↔ ∃ a ∈ mentioned, a.text = v := by
  constructor
  · intro hv
    obtain ⟨n, hn, rfl⟩ := List.mem_map.mp hv
    have hmade := h.made n hn
    rw [hmade] at hn
    exact ⟨n.member, List.mem_of_find?_eq_some ((h.first n.member).mp hn), rfl⟩
  · rintro ⟨a, ha, rfl⟩
    obtain ⟨b, hb⟩ := Option.isSome_iff_exists.mp
      (List.find?_isSome.mpr ⟨a, ha, beq_self_eq_true a.text⟩ : (mentioned.find? (·.text == a.text)).isSome)
    have htext : b.text = a.text := by simpa using List.find?_some hb
    exact List.mem_map.mpr ⟨m.exportNode b, (h.first b).mpr (htext ▸ hb), htext⟩

/-- A member that is mentioned next is the first with its text if there is no node with it. -/
theorem Nodes.mention {mentioned : List Member} (h : Nodes m mentioned t.nodes) (a : Member) :
    Nodes m (mentioned ++ [a]) (t.mention m a).nodes := by
  rw [Tally.mention]
  split
  · rename_i hknown
    obtain ⟨b, hb, htext⟩ := (h.mem_ids a.text).mp hknown
    refine ⟨h.made, fun c => ?_, h.distinct⟩
    rw [h.first, List.find?_append]
    by_cases hc : a.text = c.text
    · have hsome : (mentioned.find? (·.text == c.text)).isSome :=
        List.find?_isSome.mpr ⟨b, hb, by simp [htext, hc]⟩
      rw [Option.or_of_isSome hsome]
    · simp [hc]
  · rename_i hnew
    refine ⟨?_, fun c => ?_, ?_⟩
    · intro n hn
      rcases List.mem_append.mp hn with hn | hn
      · exact h.made n hn
      · obtain rfl := List.mem_singleton.mp hn
        rfl
    · have hnone (hc : a.text = c.text) : mentioned.find? (·.text == c.text) = none := by
        refine List.find?_eq_none.mpr fun b hb heq => hnew ((h.mem_ids a.text).mpr ⟨b, hb, ?_⟩)
        simpa [hc] using heq
      have hinj : m.exportNode c = m.exportNode a ↔ c = a :=
        ⟨congrArg ExportNode.member, congrArg m.exportNode⟩
      rw [List.mem_append, h.first, List.find?_append, List.mem_singleton, hinj]
      by_cases hc : a.text = c.text
      · simp [hnone hc, hc, eq_comm]
      · have hne : c ≠ a := fun heq => hc (congrArg Member.text heq.symm)
        simp [hc, hne]
    · rw [List.map_append, List.nodup_append_comm]
      exact List.nodup_cons.mpr ⟨hnew, h.distinct⟩

@[simp] theorem mention_counts (m : Model) (t : Tally) (a : Member) : (t.mention m a).counts = t.counts := by
  unfold mention
  split <;> rfl

@[simp] theorem mention_order (m : Model) (t : Tally) (a : Member) : (t.mention m a).order = t.order := by
  unfold mention
  split <;> rfl

/-- One reference more is told of. -/
theorem Tells.take {es : List Access} (h : Tells m es t) (a : Access) : Tells m (es ++ [a]) (t.take m a) where
  nodes := by
    have hnodes := (h.nodes.mention a.source).mention a.dest
    rw [List.append_assoc] at hnodes
    rw [List.flatMap_append]
    exact hnodes
  counts b := by
    rw [Tally.take, Tally.count, List.count_append, mention_counts, mention_counts]
    by_cases hb : b = a
    · subst hb
      simp [h.counts]
    · have hone : [a].count b = 0 := List.count_eq_zero.mpr (by simpa using hb)
      simp [hb, hone, h.counts]
  order := by
    have hmet : t.counts a = 0 ↔ es.contains a = false := by
      rw [h.counts, List.count_eq_zero]
      simp
    rw [Tally.take, Tally.count, eraseDups_concat]
    simp only [mention_counts, mention_order, hmet, h.order]
    cases es.contains a <;> rfl

/-- A pass over references tells of all of them. -/
theorem tells_foldl (m : Model) (es : List Access) : Tells m es (es.foldl (Tally.take m) empty) := by
  induction es using List.reverseRecOn with
  | nil => exact ⟨⟨by simp [empty], by simp [empty], by simp [empty]⟩, fun a => rfl, rfl⟩
  | append_singleton es a ih =>
    rw [List.foldl_append]
    exact ih.take a

/-- Sorted by their texts, the first members are those that are kept of all. -/
theorem Nodes.mergeSort_eq {mentioned : List Member} {nodes : List ExportNode} (h : Nodes m mentioned nodes) :
    (nodes.mergeSort fun a b => decide (a.id ≤ b.id)) = (sortDistinctBy Member.text mentioned).map m.exportNode := by
  have hleft : (nodes.mergeSort fun a b => decide (a.id ≤ b.id)).Pairwise fun a b => a.id < b.id := by
    have hdistinct : ((nodes.mergeSort fun a b => decide (a.id ≤ b.id)).map (·.id)).Nodup :=
      ((List.mergeSort_perm nodes _).map _).nodup_iff.mpr h.distinct
    exact (pairwise_mergeSort_key ExportNode.id nodes).imp₂ (fun _ _ hle hne => lt_of_le_of_ne hle hne)
      (List.pairwise_map.mp hdistinct)
  have hright : ((sortDistinctBy Member.text mentioned).map m.exportNode).Pairwise fun a b => a.id < b.id :=
    List.pairwise_map.mpr (rising_sortDistinctBy Member.text mentioned)
  have hmem (n : ExportNode) : (n ∈ nodes.mergeSort fun a b => decide (a.id ≤ b.id)) ↔
      n ∈ (sortDistinctBy Member.text mentioned).map m.exportNode := by
    simp only [List.mem_mergeSort, List.mem_map, mem_sortDistinctBy]
    constructor
    · intro hn
      have hmade := h.made n hn
      exact ⟨n.member, (h.first n.member).mp (hmade ▸ hn), hmade.symm⟩
    · rintro ⟨a, ha, rfl⟩
      exact (h.first a).mpr ha
  have hirrefl {a b : ExportNode} (hlt : a.id < b.id) : a ≠ b := fun heq => lt_irrefl _ (heq ▸ hlt)
  have hperm := (List.perm_ext_iff_of_nodup (hleft.imp hirrefl) (hright.imp hirrefl)).mpr hmem
  exact hperm.eq_of_pairwise (fun _ _ _ _ hab hba => absurd hab (lt_asymm hba)) hleft hright

theorem graph_ofModel (m : Model) : (ofModel m).graph = m.exportGraph := by
  have h := tells_foldl m m.edges
  have hlinks : (ofModel m).graph.links = m.exportGraph.links := by
    simp only [graph, ofModel, h.order, h.counts]
    rfl
  have hnodes : (ofModel m).graph.nodes = m.exportGraph.nodes := h.nodes.mergeSort_eq
  exact congrArg₂ ExportGraph.mk hnodes hlinks

end Tally

namespace Model

/-- Each reference has one link, in the order of their first places, with the number of its places. -/
structure CountsEdges (m : Model) (links : List ExportLink) : Prop where
  distinct : (links.map (·.access)).Nodup
  covers : ∀ a, a ∈ links.map (·.access) ↔ a ∈ m.edges
  ordered : links.Pairwise fun k l => m.edges.idxOf k.access < m.edges.idxOf l.access
  counted : ∀ l ∈ links, l.count = m.edges.count l.access
  total : (links.map (·.count)).sum = m.edges.length

/-- Each text of an end of a reference has one node, in rising order of their bytes. A node says where the class that owns
it was found, and gives the hash of that class, if it is one of the model; else it says neither. -/
structure DescribesEnds (m : Model) (nodes : List ExportNode) : Prop where
  rising : nodes.Pairwise fun a b => utf8Bytes a.id < utf8Bytes b.id
  ids : ∀ v, v ∈ nodes.map (·.id) ↔ ∃ a ∈ m.edges, v = a.source.text ∨ v = a.dest.text
  owner : ∀ n ∈ nodes, ∀ text, ("owner", text) ∈ n.properties ↔ text = n.member.owner
  location : ∀ n ∈ nodes, ∀ text, ("location", text) ∈ n.properties ↔
    ∃ c ∈ m.classes, c.name = n.member.owner ∧ text = c.location
  fingerprint : ∀ n ∈ nodes, ∀ text, ("fingerprint", text) ∈ n.properties ↔
    ∃ c ∈ m.classes, c.name = n.member.owner ∧ Hexadecimal c.fingerprint.toNat text

theorem countsEdges_exportGraph (m : Model) : m.CountsEdges m.exportGraph.links := by
  have haccesses : m.exportGraph.links.map (·.access) = m.edges.eraseDups := by
    rw [exportGraph, List.map_map]
    exact List.map_id _
  have htotal := sum_count_filter_eraseDups (fun _ => true) m.edges
  refine ⟨haccesses ▸ nodup_eraseDups m.edges, fun a => ?_, ?_, ?_, ?_⟩
  · rw [haccesses, List.mem_eraseDups]
  · have hordered := pairwise_idxOf_eraseDups m.edges
    rw [← haccesses] at hordered
    exact (List.pairwise_map (f := ExportLink.access)).mp hordered
  · intro l hl
    obtain ⟨a, -, rfl⟩ := List.mem_map.mp hl
    rfl
  · simpa [exportGraph, Function.comp_def] using htotal

/-- A node takes a property from its origin, which is that of the class that owns it. -/
theorem exists_origin_iff {m : Model} {n : ExportNode} (hn : n ∈ m.exportGraph.nodes) (select : Origin → String)
    (text : String) : (∃ o, n.origin = some o ∧ text = select o) ↔
      ∃ c ∈ m.classes, c.name = n.member.owner ∧ text = select ⟨c.location, c.fingerprint⟩ := by
  obtain ⟨a, -, rfl⟩ := List.mem_map.mp hn
  simp only [exportNode, Option.map_eq_some_iff, find?_eq_some_iff]
  constructor
  · rintro ⟨-, ⟨c, ⟨hc, hname⟩, rfl⟩, htext⟩
    exact ⟨c, hc, hname, htext⟩
  · rintro ⟨c, hc, hname, htext⟩
    exact ⟨_, ⟨c, ⟨hc, hname⟩, rfl⟩, htext⟩

theorem describesEnds_exportGraph (m : Model) : m.DescribesEnds m.exportGraph.nodes where
  rising := by
    simp only [utf8Bytes_lt_iff]
    exact List.pairwise_map.mpr (rising_sortDistinctBy Member.text m.mentioned)
  ids v := by
    rw [exportGraph_ids, memberGraph, members, mem_map_sortDistinctBy]
    simp only [mentioned, List.mem_map, List.mem_flatMap, List.mem_cons, List.not_mem_nil, or_false]
    constructor
    · rintro ⟨-, ⟨a, ha, rfl | rfl⟩, rfl⟩
      · exact ⟨a, ha, .inl rfl⟩
      · exact ⟨a, ha, .inr rfl⟩
    · rintro ⟨a, ha, rfl | rfl⟩
      · exact ⟨a.source, ⟨a, ha, .inl rfl⟩, rfl⟩
      · exact ⟨a.dest, ⟨a, ha, .inr rfl⟩, rfl⟩
  owner n _ text := by
    cases h : n.origin <;> simp [ExportNode.properties, h]
  location n hn text := by
    rw [← exists_origin_iff hn Origin.location]
    cases h : n.origin <;> simp [ExportNode.properties, h]
  fingerprint n hn text := by
    have hclass := exists_origin_iff hn Origin.fingerprintText text
    simp only [Origin.fingerprintText, ← hexadecimal_iff] at hclass
    rw [← hclass]
    cases h : n.origin <;> simp [ExportNode.properties, h, Origin.fingerprintText, hexadecimal_iff]

/-- Every reference is counted once. The links are the distinct references in the order of their first places, with
numbers that add up to that of all references; the nodes are the texts of their ends by rising bytes, with location and
hash of the owner where the model has it. The same graph comes from one pass over the references. -/
theorem exportGraph_counts_references (m : Model) : m.CountsEdges m.exportGraph.links ∧
    m.DescribesEnds m.exportGraph.nodes ∧ (Tally.ofModel m).graph = m.exportGraph :=
  ⟨countsEdges_exportGraph m, describesEnds_exportGraph m, Tally.graph_ofModel m⟩

end Model

end Linkage
