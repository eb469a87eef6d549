import QwebReceiver.Json.LayoutReading
import QwebReceiver.Template.CorpusFile

/-!
  QwebReceiver.Template.CorpusFileReading — a corpus file that was written is
  read back as the maps it was written from, entries in the same order.
-/

namespace QwebReceiver.Template

open QwebReceiver.Json

/-! ## §1. Sets and maps. -/

theorem nameSetReader_ignoresBlanks : nameSetReader.IgnoresBlanks :=
  (array_ignoresBlanks string).map _

theorem varMapReader_ignoresBlanks : varMapReader.IgnoresBlanks := object_ignoresBlanks _ _

/-- A written set is read back. -/
theorem nameSetReader_accepts (s : NameSet) (depth : Nat) :
    nameSetReader.Accepts (writeBlock .array depth (s.toList.map writeQuoted)) s := by
  have h : (array string).Accepts (writeBlock .array depth (s.toList.map writeQuoted)) s.toList :=
    array_accepts_writeBlock string_ignoresBlanks (fun t _ => string_accepts_writeQuoted t)
      (fun t _ => ⟨'"', t.flatMap writeChar ++ ['"'], rfl, rfl, by decide⟩) depth
  have := h.map NameSet.ofList
  rwa [NameSet.ofList_toList] at this

theorem takes_entries {m n : VarMap} {l : List (Text × NameSet)}
    (h : n.entries = m.entries ++ l) (depth : Nat) :
    Takes (fun m name => .ok (nameSetReader.map fun vars => m.put name vars)) m
      (l.map fun e => (e.1, writeBlock .array depth (e.2.toList.map writeQuoted))) n := by
  induction l generalizing m with
  | nil =>
    obtain rfl : n = m := VarMap.eq_of_entries (by simpa using h)
    exact Takes.nil n
  | cons e l ih =>
    have hnew : e.1 ∉ m.entries.map Prod.fst := by
      have := n.distinct
      rw [h, List.map_append, List.map_cons, List.nodup_append] at this
      intro he
      exact this.2.2 _ he _ (by simp) rfl
    refine Takes.cons rfl (nameSetReader_ignoresBlanks.map _)
      ((nameSetReader_accepts e.2 depth).map _) (ih ?_)
    rw [VarMap.entries_put_of_new hnew, h]
    simp

/-- A written map is read back. -/
theorem varMapReader_accepts (m : VarMap) (depth : Nat) :
    varMapReader.Accepts (writeVarMap depth m) m := by
  have := object_accepts_writeBlock
    (takes_entries (m := ∅) (n := m) (l := m.entries) rfl (depth + 1)) depth
  rw [List.map_map] at this
  exact this

/-! ## §2. The file. -/

/-- A written corpus file is read back. -/
theorem CorpusVars.ofJson_toJson (v : CorpusVars) : CorpusVars.ofJson v.toJson = .ok v := by
  have h : Takes (fieldMembers corpusFields) ([], {})
      [(outsideKey, writeVarMap 1 v.outside), (insideKey, writeVarMap 1 v.inside)]
      ([insideKey, outsideKey], v) :=
    .cons rfl
      ((varMapReader_ignoresBlanks.map _).map _) (((varMapReader_accepts v.outside 1).map _).map _)
      (.cons rfl ((varMapReader_ignoresBlanks.map _).map _)
        (((varMapReader_accepts v.inside 1).map _).map _) (.nil _))
  exact (record_accepts_writeBlock h 0).whole

end QwebReceiver.Template
