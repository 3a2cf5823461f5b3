/-
WireSolve/Proofs/SourceMap.lean

Locations stand for the lines that were recorded.

A function is appended when it is first used, so the functions are those of the lines in the
order of their first use (`SourceMap.Records.functions_eq`).  A location refers to its function
by position, and nothing that is recorded later changes what stands there, so a frame that can be
rendered stays as it is (`SourceMap.frame?_record`).  With an index in place of the search the
same happens, as long as the positions fit into words (`IndexedSourceMap.Follows.record`).

Nothing else that a draft is told touches its source map (`Draft.source_perform_of_none`).

Main result: `Session.source_locates`.
-/
import WireSolve.Circuit.Transcript
import WireSolve.IndexedSourceMap
import WireSolve.Proofs.Field

namespace WireSolve

/-- The text of a line in a stack: the function on one line, the file and the line on the next. -/
def SourceLine.frame (l : SourceLine) : String :=
  s!"{l.function.name}\n\t{l.function.file}:{l.line}\n"

namespace SourceMap

variable {m : SourceMap} {lines : List SourceLine} {f : SourceFunction} {i : Nat}

/-! ### Functions -/

theorem internFunction_of_findIdx?_eq_some (h : m.functions.findIdx? (· == f) = some i) :
    m.internFunction f = (m, i) := by
  rw [internFunction, h]

theorem internFunction_of_findIdx?_eq_none (h : m.functions.findIdx? (· == f) = none) :
    m.internFunction f = ({ m with functions := m.functions.push f }, m.functions.size) := by
  rw [internFunction, h]

theorem findIdx?_eq_none_iff : m.functions.findIdx? (· == f) = none ↔ f ∉ m.functions := by
  rw [Array.findIdx?_eq_none_iff]
  constructor
  · intro h hmem
    simpa using h f hmem
  · intro h g hg
    exact beq_eq_false_iff_ne.2 fun heq => h (heq ▸ hg)

/-- A function is appended unless it is there. -/
theorem functions_internFunction (m : SourceMap) (f : SourceFunction) :
    (m.internFunction f).1.functions = if f ∈ m.functions then m.functions
      else m.functions.push f := by
  rcases hfind : m.functions.findIdx? (· == f) with - | i
  · rw [internFunction_of_findIdx?_eq_none hfind, if_neg (findIdx?_eq_none_iff.1 hfind)]
  · have hmem : f ∈ m.functions := by
      by_contra hmem
      rw [findIdx?_eq_none_iff.2 hmem] at hfind
      cases hfind
    rw [internFunction_of_findIdx?_eq_some hfind, if_pos hmem]

/-- It stands at the position that is given for it. -/
theorem getElem?_internFunction (m : SourceMap) (f : SourceFunction) :
    (m.internFunction f).1.functions[(m.internFunction f).2]? = some f := by
  rcases hfind : m.functions.findIdx? (· == f) with - | i
  · rw [internFunction_of_findIdx?_eq_none hfind]
    exact Array.getElem?_push_size
  · obtain ⟨hlt, hget, -⟩ := Array.findIdx?_eq_some_iff_getElem.1 hfind
    rw [internFunction_of_findIdx?_eq_some hfind]
    exact Array.getElem?_eq_some_iff.2 ⟨hlt, eq_of_beq hget⟩

/-- Functions stay at their positions. -/
theorem getElem?_internFunction_of_lt (h : i < m.functions.size) :
    (m.internFunction f).1.functions[i]? = m.functions[i]? := by
  rw [functions_internFunction]
  split
  · rfl
  · rw [Array.getElem?_push_lt h, Array.getElem?_eq_getElem h]

theorem size_le_internFunction (m : SourceMap) (f : SourceFunction) :
    m.functions.size ≤ (m.internFunction f).1.functions.size ∧
      (m.internFunction f).1.functions.size ≤ m.functions.size + 1 := by
  rw [functions_internFunction]
  split
  · omega
  · rw [Array.size_push]
    omega

theorem locations_internFunction (m : SourceMap) (f : SourceFunction) :
    (m.internFunction f).1.locations = m.locations := by
  rw [internFunction]
  split <;> rfl

/-- With one element more, there is one more that differs from those before, or none. -/
theorem eraseDups_concat (fs : List SourceFunction) (f : SourceFunction) :
    (fs ++ [f]).eraseDups = if f ∈ fs then fs.eraseDups else fs.eraseDups ++ [f] := by
  rw [List.eraseDups_append, List.removeAll]
  by_cases hf : f ∈ fs <;> simp [hf, List.eraseDups_cons]

/-! ### Locations -/

theorem functions_record (m : SourceMap) (l : SourceLine) :
    (m.record l).1.functions = (m.internFunction l.function).1.functions := rfl

/-- A location is appended for every line, and it refers to the function of the line. -/
theorem locations_record (m : SourceMap) (l : SourceLine) :
    (m.record l).1.locations = m.locations.push ⟨(m.internFunction l.function).2, l.line⟩ :=
  congrArg (Array.push · _) (locations_internFunction m l.function)

theorem record_snd (m : SourceMap) (l : SourceLine) : (m.record l).2 = m.locations.size :=
  congrArg Array.size (locations_internFunction m l.function)

/-- Every location refers to a function that is there. -/
def Closed (m : SourceMap) : Prop := ∀ loc ∈ m.locations, loc.function < m.functions.size

theorem Closed.record (h : m.Closed) (l : SourceLine) : (m.record l).1.Closed := by
  intro loc hloc
  rw [locations_record, Array.mem_push] at hloc
  rw [functions_record]
  rcases hloc with hloc | rfl
  · exact Nat.lt_of_lt_of_le (h loc hloc) (size_le_internFunction m l.function).1
  · exact (Array.getElem?_eq_some_iff.1 (getElem?_internFunction m l.function)).1

theorem frame?_eq (m : SourceMap) (id : Nat) :
    m.frame? id = m.locations[id]?.bind fun loc =>
      m.functions[loc.function]?.map fun f => frame f loc.line := by
  simp only [frame?, Option.map_eq_bind]
  rfl

/-- What is recorded can be rendered, and what could be rendered before stays as it is. -/
theorem frame?_record (h : m.Closed) (l : SourceLine) (id : Nat) :
    (m.record l).1.frame? id = if id = m.locations.size then some l.frame else m.frame? id := by
  rw [frame?_eq, frame?_eq, locations_record, functions_record, Array.getElem?_push]
  split
  · rw [Option.bind_some, getElem?_internFunction, Option.map_some]
    rfl
  · rcases hloc : m.locations[id]? with - | loc
    · rfl
    · rw [Option.bind_some, Option.bind_some,
        getElem?_internFunction_of_lt (h loc (Array.mem_of_getElem? hloc))]

/-! ### Lines, one after the other -/

/-- A source map that has the lines it was told to record. -/
structure Records (m : SourceMap) (lines : List SourceLine) : Prop where
  closed : m.Closed
  size_eq : m.locations.size = lines.length
  functions_size_le : m.functions.size ≤ lines.length
  functions_eq : m.functions.toList = (lines.map SourceLine.function).eraseDups
  functions_nodup : m.functions.toList.Nodup
  frame?_eq : ∀ id, m.frame? id = lines[id]?.map SourceLine.frame

theorem records_empty : ({} : SourceMap).Records [] where
  closed := nofun
  size_eq := rfl
  functions_size_le := Nat.le_refl 0
  functions_eq := rfl
  functions_nodup := List.nodup_nil
  frame?_eq _ := rfl

theorem Records.record (h : m.Records lines) (l : SourceLine) :
    (m.record l).1.Records (lines ++ [l]) where
  closed := h.closed.record l
  size_eq := by
    rw [locations_record, Array.size_push, h.size_eq, List.length_append, List.length_singleton]
  functions_size_le := by
    rw [List.length_append, List.length_singleton]
    exact Nat.le_trans (size_le_internFunction m l.function).2
      (Nat.succ_le_succ h.functions_size_le)
  functions_eq := by
    have hmem : l.function ∈ m.functions ↔ l.function ∈ lines.map SourceLine.function := by
      rw [← Array.mem_toList_iff, h.functions_eq, List.mem_eraseDups]
    rw [functions_record, functions_internFunction, List.map_append, List.map_singleton,
      eraseDups_concat, ← h.functions_eq]
    simp only [hmem]
    split
    · rfl
    · rw [Array.toList_push]
  functions_nodup := by
    rw [functions_record, functions_internFunction]
    split
    · exact h.functions_nodup
    · next hnew =>
      rw [Array.toList_push, ← List.concat_eq_append]
      exact h.functions_nodup.concat (mt Array.mem_toList_iff.1 hnew)
  frame?_eq id := by
    rw [frame?_record h.closed, h.frame?_eq, h.size_eq]
    split
    · next hid => rw [hid, List.getElem?_concat_length, Option.map_some]
    · next hid =>
      rcases Nat.lt_or_gt_of_ne hid with hlt | hgt
      · rw [List.getElem?_append_left hlt]
      · rw [List.getElem?_eq_none (Nat.le_of_lt hgt), List.getElem?_eq_none (by
          rw [List.length_append]
          exact hgt)]

theorem Records.renderStack_eq (h : m.Records lines) (stack : List Nat) :
    m.renderStack stack
      = String.join (stack.filterMap fun id => lines[id]?.map SourceLine.frame) := by
  rw [renderStack, show m.frame? = _ from funext h.frame?_eq]

end SourceMap

/-! ### The index -/

namespace IndexedSourceMap

variable {t : IndexedSourceMap} {m : SourceMap} {lines : List SourceLine}

/-- A source map with an index that is in step with one without. -/
structure Follows (t : IndexedSourceMap) (m : SourceMap) : Prop where
  source_eq : t.source = m
  index_eq : ∀ f, t.index[f]? = (m.functions.findIdx? (· == f)).map UInt32.ofNat

theorem follows_empty : ({} : IndexedSourceMap).Follows {} where
  source_eq := rfl
  index_eq f := by
    show (∅ : Std.HashMap SourceFunction UInt32)[f]?
      = ((#[] : Array SourceFunction).findIdx? _).map _
    rw [Std.HashMap.getElem?_empty, Array.findIdx?_empty, Option.map_none]

/-- The index has the position that would be found, and a function that is appended is indexed. -/
theorem Follows.internFunction (h : t.Follows m) (f : SourceFunction) :
    (t.internFunction f).1.Follows (m.internFunction f).1 ∧
      (t.internFunction f).2 = UInt32.ofNat (m.internFunction f).2 := by
  obtain ⟨rfl, hindex⟩ := h
  have hf := hindex f
  rcases hfind : t.source.functions.findIdx? (· == f) with - | i <;> rw [hfind] at hf
  · rw [SourceMap.internFunction_of_findIdx?_eq_none hfind, IndexedSourceMap.internFunction, hf]
    refine ⟨⟨rfl, fun g => ?_⟩, rfl⟩
    show (t.index.insert f _)[g]? = ((t.source.functions.push f).findIdx? (· == g)).map _
    rw [Std.HashMap.getElem?_insert, Array.findIdx?_push, Option.map_or, ← hindex g]
    by_cases hfg : f = g
    · subst hfg
      rw [beq_self_eq_true, if_pos rfl, if_pos rfl, hf]
      rfl
    · rw [beq_eq_false_iff_ne.2 hfg, if_neg Bool.false_ne_true, if_neg Bool.false_ne_true]
      exact (Option.or_none).symm
  · rw [SourceMap.internFunction_of_findIdx?_eq_some hfind, IndexedSourceMap.internFunction, hf]
    exact ⟨⟨rfl, hindex⟩, rfl⟩

/-- A position that is a word stands for itself in a location. -/
theorem Follows.record (h : t.Follows m) (l : SourceLine)
    (hfits : m.functions.size < UInt32.size) :
    (t.record l).1.Follows (m.record l).1 ∧
      (t.record l).2 = UInt32.ofNat (m.record l).2 := by
  obtain ⟨hfollows, hposition⟩ := h.internFunction l.function
  have hlt : (m.internFunction l.function).2 < UInt32.size := by
    have hfound :=
      (Array.getElem?_eq_some_iff.1 (SourceMap.getElem?_internFunction m l.function)).1
    have hsize := (SourceMap.size_le_internFunction m l.function).2
    omega
  have hword : (t.internFunction l.function).2.toNat = (m.internFunction l.function).2 := by
    rw [hposition, UInt32.toNat_ofNat_of_lt' hlt]
  refine ⟨⟨?_, hfollows.index_eq⟩, ?_⟩
  · show { (t.internFunction l.function).1.source with
      locations := (t.internFunction l.function).1.source.locations.push
        ⟨(t.internFunction l.function).2.toNat, l.line⟩ } = (m.record l).1
    rw [hfollows.source_eq, hword]
    rfl
  · show UInt32.ofNat (t.internFunction l.function).1.source.locations.size = _
    rw [hfollows.source_eq]
    rfl

/-- Lines that are recorded in a source map and with an index, each with its number. -/
structure InStep (m : SourceMap) (lines : List SourceLine) : Prop where
  /-- The source map comes out the same. -/
  follows : (recordAll lines).1.Follows m
  /-- The lines are given the numbers from zero on. -/
  ids_eq : (recordAll lines).2.map UInt32.toNat = List.range lines.length

theorem recordAll_concat (lines : List SourceLine) (l : SourceLine) :
    recordAll (lines ++ [l]) = (((recordAll lines).1.record l).1,
      (recordAll lines).2 ++ [((recordAll lines).1.record l).2]) :=
  List.foldl_concat _ _ _ _

theorem InStep.record (h : InStep m lines) (hm : m.Records lines) (l : SourceLine)
    (hfits : lines.length < UInt32.size) : InStep (m.record l).1 (lines ++ [l]) := by
  obtain ⟨hfollows, hid⟩ := h.follows.record l (Nat.lt_of_le_of_lt hm.functions_size_le hfits)
  refine ⟨recordAll_concat lines l ▸ hfollows, ?_⟩
  rw [recordAll_concat, List.map_append, h.ids_eq, List.map_singleton, hid, SourceMap.record_snd,
    hm.size_eq, UInt32.toNat_ofNat_of_lt' hfits, List.length_append, List.length_singleton,
    List.range_succ]

end IndexedSourceMap

/-! ### Every call -/

theorem Reply.location?_ofWire (x : Except DraftError Wire) : (ofWire x).location? = none := by
  rcases x with e | w <;> rfl

variable {p : Nat} [Modulus p]

namespace Draft

variable {d : Draft p} {ts : Transcript p} {a : Call p} {l : SourceLine}

/-- A call that records a line does just that to the source map, and its number comes back. -/
theorem source_perform_of_some (ha : a.sourceLine? = some l) :
    (d.perform a).1.circuit.source = (d.circuit.source.record l).1 ∧
      (d.perform a).2.location? = some (d.circuit.source.record l).2 := by
  cases a with
  | location function file line =>
    cases ha
    exact ⟨rfl, rfl⟩
  | _ => cases ha

theorem source_nextLevel (d : Draft p) : d.nextLevel.circuit.source = d.circuit.source := by
  unfold nextLevel
  split <;> rfl

/-- Every other call leaves the source map alone. -/
theorem source_perform_of_none (ha : a.sourceLine? = none) :
    (d.perform a).1.circuit.source = d.circuit.source ∧ (d.perform a).2.location? = none := by
  cases a with
  | location => cases ha
  | one | publicInput | secretInput => exact ⟨rfl, Reply.location?_ofWire _⟩
  | nextLevel => exact ⟨source_nextLevel d, rfl⟩
  | _ => exact ⟨rfl, rfl⟩

/-- A draft whose source map has the lines of the calls, and the numbers that came back for them. -/
structure Recalls (d : Draft p) (ts : Transcript p) : Prop where
  records : d.circuit.source.Records ts.sourceLines
  locations_eq : ts.locations = List.range ts.sourceLines.length
  inStep : ts.sourceLines.length ≤ UInt32.size →
    IndexedSourceMap.InStep d.circuit.source ts.sourceLines

theorem recalls_start (family : Family) (publicInputs secretInputs : Count) :
    (start family publicInputs secretInputs : Draft p).Recalls [] where
  records := SourceMap.records_empty
  locations_eq := rfl
  inStep _ := ⟨IndexedSourceMap.follows_empty, rfl⟩

theorem Recalls.perform (hd : d.Recalls ts) (a : Call p) :
    (d.perform a).1.Recalls (ts ++ [(a, (d.perform a).2)]) := by
  rcases ha : a.sourceLine? with - | l
  · obtain ⟨hsource, hreply⟩ := source_perform_of_none (d := d) ha
    constructor <;>
      simp only [Transcript.sourceLines_concat, Transcript.locations_concat, ha, hreply, hsource,
        Option.toList_none, List.append_nil]
    · exact hd.records
    · exact hd.locations_eq
    · exact hd.inStep
  · obtain ⟨hsource, hreply⟩ := source_perform_of_some (d := d) ha
    constructor <;>
      simp only [Transcript.sourceLines_concat, Transcript.locations_concat, ha, hreply, hsource,
        Option.toList_some]
    · exact hd.records.record l
    · rw [hd.locations_eq, SourceMap.record_snd, hd.records.size_eq, List.length_append,
        List.length_singleton, List.range_succ]
    · intro hfits
      rw [List.length_append, List.length_singleton] at hfits
      exact (hd.inStep (Nat.le_of_succ_le hfits)).record hd.records l hfits

end Draft

/-! ### Sequences of calls -/

/-- What a source map has to do with the lines that it was told to record, and with the numbers that
came back for them. -/
structure SourceMap.Locates (m : SourceMap) (lines : List SourceLine) (ids : List Nat) : Prop where
  /-- The numbers are those from zero on, in order. -/
  ids_eq : ids = List.range lines.length
  /-- The functions are those of the lines, in the order of their first use. -/
  functions_eq : m.functions.toList = (lines.map SourceLine.function).eraseDups
  /-- None of them is there twice. -/
  functions_nodup : m.functions.toList.Nodup
  /-- A stack is rendered as one frame for each number that came back, that of the line it came
  back for; other numbers add nothing. -/
  renderStack_eq : ∀ stack, m.renderStack stack
    = String.join (stack.filterMap fun id => lines[id]?.map SourceLine.frame)
  /-- As long as there are words for all lines, it is the same with an index. -/
  inStep : lines.length ≤ UInt32.size → IndexedSourceMap.InStep m lines

/-- Whatever a draft is told, its locations stand for the lines that it was told to record. -/
theorem Session.source_locates (family : Family) (publicInputs secretInputs : Count)
    (calls : List (Draft.Call p)) :
    let s := (start family publicInputs secretInputs : Session p).run calls
    s.circuit.source.Locates (calls.filterMap Draft.Call.sourceLine?)
      (s.replies.filterMap Reply.location?) := by
  intro s
  have hrecalls : s.draft.Recalls (s.transcript calls) :=
    start_induction (fun _ _ a hd => hd.perform a)
      (Draft.recalls_start family publicInputs secretInputs) calls
  have hsource : s.circuit.source = s.draft.circuit.source := Draft.source_nextLevel s.draft
  obtain ⟨hcalls, hreplies⟩ := unzip_transcript_run (p := p) family publicInputs secretInputs calls
  have hlines := (s.transcript calls).filterMap_sourceLine?
  have hids := (s.transcript calls).filterMap_location?
  rw [hcalls] at hlines
  rw [hreplies] at hids
  rw [hsource, hlines, hids]
  exact
    { ids_eq := hrecalls.locations_eq
      functions_eq := hrecalls.records.functions_eq
      functions_nodup := hrecalls.records.functions_nodup
      renderStack_eq := hrecalls.records.renderStack_eq
      inStep := hrecalls.inStep }

/-- Functions of the same name in two files, the first of them at two lines, and calls between. -/
def Session.recurring : List (Draft.Call 17) :=
  [.location "f" "a" 1, .internal, .location "f" "b" 2, .nextLevel, .location "f" "a" 3]

/-- A stack with a frame twice, and with a number that stands for nothing. -/
theorem Session.recurring_located :
    let s := (start .rank1 1 0 : Session 17).run recurring
    s.replies.filterMap Reply.location? = [0, 1, 2] ∧
      s.circuit.source.functions.toList = [⟨"f", "a"⟩, ⟨"f", "b"⟩] ∧
      s.circuit.source.renderStack [2, 1, 7, 2] = "f\n\ta:3\nf\n\tb:2\nf\n\ta:3\n" ∧
      IndexedSourceMap.InStep s.circuit.source
        [⟨⟨"f", "a"⟩, 1⟩, ⟨⟨"f", "b"⟩, 2⟩, ⟨⟨"f", "a"⟩, 3⟩] := by
  intro s
  obtain ⟨hids, hfunctions, -, hstack, hinStep⟩ := source_locates .rank1 1 0 recurring
  refine ⟨hids, hfunctions.trans (by decide +kernel), ?_, hinStep (by decide)⟩
  rw [hstack]
  decide +kernel

end WireSolve
