import FrontEnd.Metrics.Summary
import FrontEnd.Proofs.Json
import FrontEnd.Proofs.Metrics.History
import Mathlib.Tactic.Linarith
import Mathlib.Tactic.NormNum

/-!
# The summary as JSON

* `Json.number_millis` : times are numerals for thousandths;
* `Metrics.ShownPlain` : names of finished stages and keys that stand for themselves between quotes;
* `Metrics.Summarizes` : the members that the summary of some metrics has;
* `Metrics.summaryJson_run` : after every sequence of actions that leaves such names, the summary is a JSON text for an
  object with these members, and no member occurs twice unless the names of two finished stages differ in their case
  only;
* `Metrics.summaryJson_quoted` : a quote in a key, which is written as it is, leaves no JSON text.
-/

namespace FrontEnd

/-! ## Figures -/

namespace Text

theorem digitsValue_zeros (k : Nat) (digits : Text) :
    digitsValue (List.replicate k '0' ++ digits) = digitsValue digits := by
  induction k with
  | zero => rfl
  | succ k ih => exact ih

end Text

namespace Json

/-- The three places of a time in milliseconds. -/
theorem fraction_places {n : Nat} (h : n < 1000) :
    Fraction ('.' :: (List.replicate (3 - (Text.ofNat n).length) '0' ++ Text.ofNat n)) (n / 1000) := by
  have hlength : (Text.ofNat n).length ≤ 3 := (Nat.length_toDigits_le_iff (by decide) (by decide)).2 h
  have hdigits : ∀ d ∈ List.replicate (3 - (Text.ofNat n).length) '0' ++ Text.ofNat n, d.isDigit := by
    intro d hd
    rcases List.mem_append.1 hd with hd | hd
    · rw [List.eq_of_mem_replicate hd]
      rfl
    · exact Text.isDigit_of_mem_ofNat hd
  have hne : List.replicate (3 - (Text.ofNat n).length) '0' ++ Text.ofNat n ≠ [] :=
    List.append_ne_nil_of_right_ne_nil _ Nat.toDigits_ne_nil
  have hfraction := Fraction.some hne hdigits
  rw [Text.digitsValue_zeros, Text.digitsValue_ofNat, List.length_append, List.length_replicate,
    Nat.sub_add_cancel hlength] at hfraction
  norm_num at hfraction
  exact hfraction

theorem number_millis (micros : Nat) : Number (Metrics.millis micros) (micros / 1000) := by
  have h := Number.positive (whole_ofNat (micros / 1000)) (fraction_places (Nat.mod_lt micros (by decide))) .none
  have hsplit : (1000 : ℚ) * (micros / 1000 : Nat) + (micros % 1000 : Nat) = micros := by
    exact_mod_cast Nat.div_add_mod micros 1000
  have hvalue : ((Text.digitsValue (Text.ofNat (micros / 1000)) : ℚ) + (micros % 1000 : Nat) / 1000) * 10 ^ (0 : ℤ) =
      micros / 1000 := by
    rw [Text.digitsValue_ofNat, zpow_zero, mul_one]
    linarith
  have htext : Text.ofNat (micros / 1000) ++ ('.' :: (List.replicate (3 - (Text.ofNat (micros % 1000)).length) '0' ++
      Text.ofNat (micros % 1000)) ++ []) = Metrics.millis micros := by
    simp [Metrics.millis]
  rwa [hvalue, htext] at h

theorem isPlain_toLower {c : Char} (h : IsPlain c) : IsPlain c.toLower := by
  unfold Char.toLower
  split
  · next hletter =>
    have hbounds : 65 ≤ c.val.toNat ∧ c.val.toNat ≤ 90 := hletter
    have hval : (c.val + ('a'.val - 'A'.val)).toNat = c.val.toNat + 32 := by
      rw [UInt32.toNat_add]
      exact Nat.mod_eq_of_lt (Nat.lt_of_le_of_lt (Nat.add_le_add_right hbounds.2 _) (by decide))
    have hne : ∀ d e : Char, e.toNat = c.val.toNat + 32 → d.toNat < 97 → e ≠ d := by
      rintro d e he hd rfl
      omega
    refine ⟨?_, hne _ _ hval (by decide), hne _ _ hval (by decide)⟩
    rw [Char.toNat, hval]
    omega
  · exact h

end Json

namespace Metrics
open Json

/-! ## Members -/

/-- A member as it is written in the summary. -/
theorem member_quotedName {w name t : Text} {v : Json} (hw : Blank w) (hname : ∀ c ∈ name, IsPlain c)
    (h : Padded t v) : Member (w ++ quotedName name ++ ": " ++ t) (name, v) := by
  have hmember := Member.mk hw (contents_of_plain hname) blank_nil (h.pad (w := [' ']) (by simp [Blank]))
  simpa [quotedName] using hmember

/-- Members on lines of their own between braces. -/
theorem padded_lines {lines : List Text} {members : List (Text × Json)} (h : List.Forall₂ Member lines members) :
    Padded ('{' :: (if lines.isEmpty then [] else '\n' :: Text.joined ",\n" lines) ++ "\n  " ++ ['}'])
      (.object members) := by
  have hend : Blank "\n  " := by simp [Blank]
  cases h with
  | nil => exact (Value.emptyObject hend).padded
  | cons hfirst hrest =>
    have hmembers := members_joined (show Blank ['\n'] by simp [Blank]) (.cons hfirst hrest) (List.cons_ne_nil _ _)
    have hobject := Value.object ((hmembers.pad (w := ['\n']) (by simp [Blank])).padBehind hend)
    simpa using hobject.padded

/-- A member with members of its own, each on a line. -/
theorem member_objectMember {name : Text} {entries : List (Text × Text)} {members : List (Text × Json)}
    (hname : ∀ c ∈ name, IsPlain c)
    (h : List.Forall₂ (fun entry member => entry.1 = member.1 ∧ (∀ c ∈ entry.1, IsPlain c) ∧ Padded entry.2 member.2)
      entries members) : Member (objectMember name entries) (name, .object members) := by
  have hlines : List.Forall₂ Member (entries.map fun entry => "    " ++ quotedName entry.1 ++ ": " ++ entry.2)
      members := by
    rw [List.forall₂_map_left_iff]
    refine h.imp fun entry member hentry => ?_
    obtain ⟨key, v⟩ := member
    obtain ⟨rfl, hplain, hvalue⟩ := hentry
    exact member_quotedName (by simp [Blank]) hplain hvalue
  have hmember := member_quotedName (w := "  ") (by simp [Blank]) hname (padded_lines hlines)
  simpa [objectMember] using hmember

/-! ## The parts of the summary -/

/-- The times of the finished stages in milliseconds, by their names in small letters. -/
def stageTimes (m : Metrics) : Json :=
  .object (m.finished.map fun (name, micros) => (name.lowered, .number (micros / 1000)))

/-- The size of a tree. -/
def treeSize (g : Geometry) : Json := .object [("nodes", .number g.nodes), ("max_depth", .number g.maxDepth)]

/-- A table of figures, unless it is empty. -/
def figures? (table : Dictionary UInt64) : Option Json :=
  if table.toList = [] then none
  else some (.object (table.toList.map fun (key, value) => (key, .number value.toNat)))

/-- The hints, unless there are none. -/
def hintList? (hints : List Text) : Option Json := if hints = [] then none else some (.array (hints.map .string))

/-- The parts that a summary can have. -/
def parts (m : Metrics) : List (Text × Option Json) :=
  [("durations_ms", some m.stageTimes), ("ast", m.geometry.map treeSize), ("counters", figures? m.counters),
    ("gauges", figures? m.gauges), ("hints", hintList? m.hints)]

/-- A member for a part that is there. -/
def present (p : Text × Option Json) : List (Text × Json) := p.2.toList.map (p.1, ·)

/-- The members of the summary in order. -/
def summaryMembers (m : Metrics) : List (Text × Json) := m.parts.flatMap present

theorem present_none (name : Text) : present (name, none) = [] := rfl

theorem present_some (name : Text) (v : Json) : present (name, some v) = [(name, v)] := rfl

theorem names_sublist (ps : List (Text × Option Json)) :
    ((ps.flatMap present).map Prod.fst).Sublist (ps.map Prod.fst) := by
  induction ps with
  | nil => exact .slnil
  | cons p ps ih =>
    obtain ⟨name, v⟩ := p
    cases v with
    | none => exact ih.cons name
    | some v => exact ih.cons_cons name

theorem lookup_present {ps : List (Text × Option Json)} (h : (ps.map Prod.fst).Nodup) (key : Text) :
    (ps.flatMap present).lookup key = (ps.lookup key).join := by
  induction ps with
  | nil => rfl
  | cons p ps ih =>
    obtain ⟨name, v⟩ := p
    obtain ⟨hnew, hrest⟩ := List.nodup_cons.1 h
    rw [List.flatMap_cons, List.lookup_cons]
    by_cases hk : key = name
    · subst hk
      have hnone : (ps.flatMap present).lookup key = none := by
        have habsent : ps.lookup key = none := List.lookup_eq_none_iff.2 fun p hp =>
          bne_iff_ne.2 fun heq => hnew (List.mem_map.2 ⟨p, hp, heq.symm⟩)
        rw [ih hrest, habsent]
        rfl
      cases v with
      | none => simpa [present_none] using hnone
      | some v => simp [present_some]
    · have hne : (key == name) = false := beq_eq_false_iff_ne.2 hk
      cases v with
      | none => simpa [present_none, hne] using ih hrest
      | some v => simpa [present_some, List.lookup_cons, hne] using ih hrest

/-- The members of an object are the parts of the summary of `m` that are there. -/
structure Summarizes (m : Metrics) (members : List (Text × Json)) : Prop where
  names : (members.map Prod.fst).Sublist ["durations_ms", "ast", "counters", "gauges", "hints"]
  durations : members.lookup ("durations_ms" : Text) = some m.stageTimes
  ast : members.lookup ("ast" : Text) = m.geometry.map treeSize
  counters : members.lookup ("counters" : Text) = figures? m.counters
  gauges : members.lookup ("gauges" : Text) = figures? m.gauges
  hints : members.lookup ("hints" : Text) = hintList? m.hints

theorem nodup_parts (m : Metrics) : (m.parts.map Prod.fst).Nodup := by
  have h : (["durations_ms", "ast", "counters", "gauges", "hints"] : List Text).Nodup := by decide
  exact h

theorem summarizes (m : Metrics) : m.Summarizes m.summaryMembers where
  names := names_sublist m.parts
  durations := lookup_present m.nodup_parts _
  ast := lookup_present m.nodup_parts _
  counters := lookup_present m.nodup_parts _
  gauges := lookup_present m.nodup_parts _
  hints := lookup_present m.nodup_parts _

/-! ## The text of the summary -/

/-- Names of finished stages and keys stand for themselves between quotes. -/
structure ShownPlain (m : Metrics) : Prop where
  stages : ∀ stage ∈ m.finished, ∀ c ∈ stage.1, IsPlain c
  counters : ∀ entry ∈ m.counters.toList, ∀ c ∈ entry.1, IsPlain c
  gauges : ∀ entry ∈ m.gauges.toList, ∀ c ∈ entry.1, IsPlain c

theorem plain_hints (m : Metrics) : ∀ hint ∈ m.hints, ∀ c ∈ hint, IsPlain c := by
  have hall : ∀ hint ∈ (["type_errors_present", "no_functions", "deep_ast"] : List Text), ∀ c ∈ hint, IsPlain c := by
    simp [IsPlain]
  intro hint hm
  obtain ⟨candidate, hcandidate, rfl⟩ := List.mem_map.1 hm
  exact hall _ (List.mem_map_of_mem (List.mem_filter.1 hcandidate).1)

theorem member_durations {m : Metrics} (h : m.ShownPlain) :
    Member (objectMember "durations_ms" (m.finished.map fun (name, micros) => (name.lowered, millis micros)))
      ("durations_ms", m.stageTimes) := by
  refine member_objectMember (by simp [IsPlain]) ?_
  rw [List.forall₂_map_left_iff, List.forall₂_map_right_iff, List.forall₂_same]
  rintro ⟨name, micros⟩ hm
  refine ⟨rfl, fun c hc => ?_, (Value.number (number_millis micros)).padded⟩
  obtain ⟨d, hd, rfl⟩ := List.mem_map.1 hc
  exact isPlain_toLower (h.stages _ hm d hd)

theorem forall₂_tableMember {name : Text} (hname : ∀ c ∈ name, IsPlain c) {table : Dictionary UInt64}
    (h : ∀ entry ∈ table.toList, ∀ c ∈ entry.1, IsPlain c) :
    List.Forall₂ Member (tableMember name table) (present (name, figures? table)) := by
  unfold tableMember figures?
  simp only [List.isEmpty_iff]
  split
  · exact .nil
  · refine .cons (member_objectMember hname ?_) .nil
    rw [List.forall₂_map_left_iff, List.forall₂_map_right_iff, List.forall₂_same]
    rintro ⟨key, value⟩ hm
    exact ⟨rfl, h _ hm, (Value.number (number_ofNat value.toNat)).padded⟩

theorem member_geometry (g : Geometry) : Member (geometryMember g) ("ast", treeSize g) := by
  have hblank : Blank [' '] := by simp [Blank]
  have hast : ∀ c ∈ "ast".toList, IsPlain c := by simp [IsPlain]
  have hnodes : ∀ c ∈ "nodes".toList, IsPlain c := by simp [IsPlain]
  have hdepth : ∀ c ∈ "max_depth".toList, IsPlain c := by simp [IsPlain]
  have hfirst := member_quotedName hblank hnodes (Value.number (number_ofNat g.nodes)).padded
  have hsecond := member_quotedName hblank hdepth (Value.number (number_ofNat g.maxDepth)).padded
  have hobject := Value.object (.cons hfirst (.one (hsecond.padBehind hblank)))
  have hmember := member_quotedName (w := "  ") (by simp [Blank]) hast hobject.padded
  have htext : geometryMember g = "  ".toList ++ quotedName "ast" ++ ": ".toList ++ ('{' :: " ".toList) ++
      quotedName "nodes" ++ ": ".toList ++ Text.ofNat g.nodes ++ ", ".toList ++ quotedName "max_depth" ++ ": ".toList ++
      Text.ofNat g.maxDepth ++ " ".toList ++ ['}'] := rfl
  rw [htext, treeSize]
  simpa using hmember

theorem forall₂_geometry (geometry : Option Geometry) :
    List.Forall₂ Member (geometry.toList.map geometryMember) (present ("ast", geometry.map treeSize)) := by
  cases geometry with
  | none => exact .nil
  | some g => exact .cons (member_geometry g) .nil

theorem forall₂_hintsMember {hints : List Text} (h : ∀ hint ∈ hints, ∀ c ∈ hint, IsPlain c) :
    List.Forall₂ Member (hintsMember hints) (present ("hints", hintList? hints)) := by
  unfold hintsMember hintList?
  simp only [List.isEmpty_iff]
  split
  · exact .nil
  · next hne =>
    refine .cons ?_ .nil
    have hstrings : List.Forall₂ Padded (hints.map quotedName) (hints.map .string) := by
      rw [List.forall₂_map_left_iff, List.forall₂_map_right_iff, List.forall₂_same]
      exact fun hint hm => (Value.string (contents_of_plain (h hint hm))).padded
    have helements := elements_joined (show Blank [' '] by simp [Blank]) hstrings (by simpa using hne)
    have hname : ∀ c ∈ "hints".toList, IsPlain c := by simp [IsPlain]
    have hmember := member_quotedName (w := "  ") (by simp [Blank]) hname (Value.array helements).padded
    simpa using hmember

theorem summaryMembers_eq (m : Metrics) : m.summaryMembers =
    ("durations_ms".toList, m.stageTimes) :: present ("ast", m.geometry.map treeSize) ++
      present ("counters", figures? m.counters) ++ present ("gauges", figures? m.gauges) ++
      present ("hints", hintList? m.hints) := by
  simp [summaryMembers, parts, present_some]

/-- With plain names the summary is the text of an object. -/
theorem padded_summaryJson {m : Metrics} (h : m.ShownPlain) : Padded m.summaryJson (.object m.summaryMembers) := by
  have hline : Blank ['\n'] := by simp [Blank]
  have hcounters := forall₂_tableMember (show ∀ c ∈ "counters".toList, IsPlain c by simp [IsPlain]) h.counters
  have hgauges := forall₂_tableMember (show ∀ c ∈ "gauges".toList, IsPlain c by simp [IsPlain]) h.gauges
  have hpieces : List.Forall₂ Member
      (objectMember "durations_ms" (m.finished.map fun (name, micros) => (name.lowered, millis micros)) ::
        m.geometry.toList.map geometryMember ++ tableMember "counters" m.counters ++ tableMember "gauges" m.gauges ++
        hintsMember m.hints) m.summaryMembers := by
    rw [summaryMembers_eq]
    exact List.rel_append (List.rel_append (List.rel_append (.cons (member_durations h) (forall₂_geometry m.geometry))
      hcounters) hgauges) (forall₂_hintsMember m.plain_hints)
  have hmembers := members_joined hline hpieces (by simp [summaryMembers_eq])
  have hobject := Value.object ((hmembers.pad hline).padBehind hline)
  simpa [summaryJson] using hobject.padded.padBehind hline

/-! ### Members that occur twice -/

theorem distinct_stageTimes (m : Metrics) :
    m.stageTimes.Distinct ↔ (m.finished.map fun stage => stage.1.lowered).Nodup := by
  have hnames : (m.finished.map fun (name, micros) => (name.lowered, Json.number (micros / 1000))).map Prod.fst =
      m.finished.map fun stage => stage.1.lowered := by
    rw [List.map_map]
    rfl
  rw [← hnames, stageTimes]
  constructor
  · intro h
    cases h with
    | object hnodup _ => exact hnodup
  · refine fun hnodup => .object hnodup fun member hm => ?_
    obtain ⟨stage, -, rfl⟩ := List.mem_map.1 hm
    exact .number

theorem distinct_treeSize (g : Geometry) : (treeSize g).Distinct := by
  refine .object (by simp) fun member hm => ?_
  rcases List.mem_pair.1 hm with rfl | rfl <;> exact .number

/-- Keys of a table are in order, so none is there twice. -/
theorem distinct_figures {table : Dictionary UInt64} : ∀ v ∈ figures? table, v.Distinct := by
  intro v hv
  rw [figures?] at hv
  split at hv
  · cases hv
  · obtain rfl := Option.some.inj hv
    refine .object ?_ fun member hm => ?_
    · have hnames : (table.toList.map fun (key, value) => (key, Json.number value.toNat)).map Prod.fst =
          table.keys := by
        rw [List.map_map]
        rfl
      rw [hnames]
      exact table.nodup_keys
    · obtain ⟨entry, -, rfl⟩ := List.mem_map.1 hm
      exact .number

theorem distinct_hintList {hints : List Text} : ∀ v ∈ hintList? hints, v.Distinct := by
  intro v hv
  rw [hintList?] at hv
  split at hv
  · cases hv
  · obtain rfl := Option.some.inj hv
    refine .array fun v hm => ?_
    obtain ⟨hint, -, rfl⟩ := List.mem_map.1 hm
    exact .string

theorem distinct_members (m : Metrics) :
    (Json.object m.summaryMembers).Distinct ↔ (m.finished.map fun stage => stage.1.lowered).Nodup := by
  rw [← distinct_stageTimes]
  constructor
  · intro h
    cases h with
    | object _ hall => exact hall ("durations_ms", m.stageTimes) (by simp [summaryMembers_eq])
  · refine fun hstages => .object (m.nodup_parts.sublist (names_sublist m.parts)) fun member hm => ?_
    obtain ⟨p, hp, hpresent⟩ := List.mem_flatMap.1 hm
    obtain ⟨v, hv, rfl⟩ := List.mem_map.1 hpresent
    rw [Option.mem_toList] at hv
    simp only [parts, List.mem_cons, List.not_mem_nil, or_false] at hp
    rcases hp with rfl | rfl | rfl | rfl | rfl
    · exact Option.some.inj hv ▸ hstages
    · obtain ⟨g, -, rfl⟩ := Option.map_eq_some_iff.1 hv
      exact distinct_treeSize g
    · exact distinct_figures v hv
    · exact distinct_figures v hv
    · exact distinct_hintList v hv

/-! ## Histories -/

/-- After every sequence of actions that leaves names and keys that stand for themselves between quotes, the summary is
a JSON text for an object whose members are the parts of the summary that are there: the times of the finished stages,
the size of the tree that was set last, the counters, the gauges and the hints. No object in it has a member twice just
if no two finished stages have names that differ in their case only. -/
theorem summaryJson_run (actions : List Action) (h : (run actions).ShownPlain) :
    ∃ members, Padded (run actions).summaryJson (.object members) ∧ (run actions).Summarizes members ∧
      ((Json.object members).Distinct ↔ ((run actions).finished.map fun stage => stage.1.lowered).Nodup) ∧
      (run actions).geometry = (actions.filterMap Action.geometry?).getLast? ∧
      ∀ name micros, (run actions).durations.find? name = some micros ↔ (name, micros) ∈ (run actions).finished :=
  ⟨_, padded_summaryJson h, summarizes _, distinct_members _, geometry_run actions, find?_durations actions⟩

/-- A stage that is finished, a tree and both tables. -/
theorem summaryJson_run_figures :
    let actions : List Action := [.start "Lex" 0, .stop "Lex" 1500, .increment "parse.functions" 2,
      .setGauge "check.ok" 0, .setGeometry ⟨5, 2⟩]
    (run actions).ShownPlain ∧ ∃ members, Padded (run actions).summaryJson (.object members) ∧
      (Json.object members).Distinct ∧
      members.lookup ("durations_ms" : Text) = some (.object [("lex", .number (3 / 2))]) ∧
      members.lookup ("counters" : Text) = some (.object [("parse.functions", .number 2)]) ∧
      members.lookup ("hints" : Text) = some (.array [.string "type_errors_present"]) := by
  intro actions
  have hfinished : (run actions).finished = [("Lex".toList, 1500)] := rfl
  have hcounters : (run actions).counters.toList = [("parse.functions".toList, 2)] := rfl
  have hgauges : (run actions).gauges.toList = [("check.ok".toList, 0)] := rfl
  have hplain : (run actions).ShownPlain := by
    constructor
    · simp [hfinished, IsPlain]
    · simp [hcounters, IsPlain]
    · simp [hgauges, IsPlain]
  obtain ⟨members, htext, hmembers, hdistinct, -, -⟩ := summaryJson_run actions hplain
  refine ⟨hplain, members, htext, hdistinct.2 (by decide), ?_, hmembers.counters, hmembers.hints⟩
  have hmillis : ((1500 : Nat) / 1000 : ℚ) = 3 / 2 := by norm_num
  rw [hmembers.durations, stageTimes, hfinished, ← hmillis]
  rfl

/-- A quote in a key ends the key where it stands. -/
theorem summaryJson_quoted : ¬ ∃ v, Padded (run [.increment "\"" 1]).summaryJson v := by
  rintro ⟨v, hv⟩
  have heven := hv.even_quotes (by decide)
  exact absurd heven (by decide)

end Metrics
end FrontEnd
