import PointsTo.Config.Yaml
import PointsTo.Proofs.Yaml.Block
import PointsTo.Proofs.Yaml.Reading

/-!
# Configurations are read back

A configuration is written as the document that spells out every setting
(`Config.toDocument`). The document describes the configuration again, unless it
is at fault (`Config.toDocument_toConfig`); its node is read back by the readers
of its parts (`Document.readYaml_toYaml`), and its text by the parser, for it is
a block of words (`Config.ofYamlText?_toYamlText`). Only the first of these looks
at the settings one by one without regard to how they are written, so any other
notation that keeps documents serves as well (`Config.yaml_roundtrip`).
-/

namespace PointsTo

/-! ## Parts of a configuration -/

namespace Yaml

/-- The word for a boolean. -/
def boolWord (b : Bool) : String := if b then "true" else "false"

/-- The word for a limit. -/
def limitWord : Option Nat → String
  | none => "null"
  | some n => toString n

theorem isWord_boolWord (b : Bool) : IsWord (boolWord b) := by
  cases b <;> decide

theorem isWord_limitWord (limit : Option Nat) : IsWord (limitWord limit) := by
  cases limit with
  | none => decide
  | some n => exact isWord_numeral n

variable {entries : List (String × Yaml)} {name : String} {n : Nat}

theorem readOptional_bool (hnames : (entries.map Prod.fst).Nodup) {b : Bool}
    (hmem : (name, bool b) ∈ entries) : readOptional readBool entries name = pure (some b) := by
  refine readOptional_of_mem hnames hmem (readNullable_some rfl ?_ (readBool_bool b))
  cases b <;> rfl

theorem readNullable_nat (hn : n ≤ maxCount) : readNullable readCount (nat n) = pure (some n) :=
  readNullable_some rfl (congrArg some (isNullText_numeral n)) (readNat_nat hn)

theorem readOptional_nat (hnames : (entries.map Prod.fst).Nodup) (hn : n ≤ maxCount)
    (hmem : (name, nat n) ∈ entries) : readOptional readCount entries name = pure (some n) :=
  readOptional_of_mem hnames hmem (readNullable_nat hn)

/-- A limit may be unset, which is written as well. -/
theorem readOptional_limit (hnames : (entries.map Prod.fst).Nodup) {limit : Option Nat}
    (hlimit : ∀ n, limit = some n → n ≤ maxCount) (hmem : (name, option nat limit) ∈ entries) :
    readOptional readCount entries name = pure limit := by
  refine readOptional_of_mem hnames hmem ?_
  cases limit with
  | none => exact readNullable_null readCount
  | some n => exact readNullable_nat (hlimit n rfl)

end Yaml

namespace PopStrategy

variable {s : PopStrategy}

/-- A strategy as it is written. -/
def block : PopStrategy → Yaml.Block
  | .shuffled seed => .text "order" "shuffled" (.text "seed" (toString seed) .nil)
  | s => .text "order" s.orderName .nil

theorem toYaml_eq (s : PopStrategy) : s.toYaml = .mapping none s.block.entries := by
  cases s <;> rfl

theorem isPlain_block (s : PopStrategy) : s.block.IsPlain := by
  cases s with
  | fifo => exact .text (by decide) (by decide) .nil
  | lifo => exact .text (by decide) (by decide) .nil
  | shuffled seed =>
      exact .text (by decide) (by decide) (.text (by decide) (Yaml.isWord_numeral seed) .nil)

/-- The seed of a strategy, if it has one, fits a word. -/
def FitsWords : PopStrategy → Prop
  | .shuffled seed => seed ≤ maxCount
  | _ => True

theorem readYaml_toYaml (hs : s.FitsWords) : readYaml s.toYaml = pure s := by
  cases s with
  | fifo => rfl
  | lifo => rfl
  | shuffled seed =>
      -- The seed and both keys are set aside before the name of the order is known.
      have horder : Yaml.readLoose Loose.maxDepth (.plain "order") = pure (.text "order") :=
        Yaml.readLoose_plain _ (by decide)
      have hkey : Yaml.readLoose Loose.maxDepth (.plain "seed") = pure (.text "seed") :=
        Yaml.readLoose_plain _ (by decide)
      have hseed : Yaml.readLoose Loose.maxDepth (.nat seed) = pure (.nat seed) :=
        Yaml.readLoose_plain _ (Yaml.looseOfPlain?_numeral hs)
      simp [readYaml, toYaml, Yaml.record, horder, hkey, hseed]
      rfl

end PopStrategy

namespace Limits

variable {l : Limits}

def block (l : Limits) : Yaml.Block :=
  .text "max_nodes" (Yaml.limitWord l.maxNodes) (.text "max_merges" (Yaml.limitWord l.maxMerges)
    (.text "max_pts_membership" (Yaml.limitWord l.maxMembership) .nil))

theorem toYaml_eq (l : Limits) : l.toYaml = .mapping none l.block.entries := by
  obtain ⟨maxNodes, maxMerges, maxMembership⟩ := l
  cases maxNodes <;> cases maxMerges <;> cases maxMembership <;> rfl

theorem isPlain_block (l : Limits) : l.block.IsPlain :=
  .text (by decide) (Yaml.isWord_limitWord _) (.text (by decide) (Yaml.isWord_limitWord _)
    (.text (by decide) (Yaml.isWord_limitWord _) .nil))

/-- The limits that are set fit words. -/
structure FitsWords (l : Limits) : Prop where
  maxNodes (n : Nat) : l.maxNodes = some n → n ≤ maxCount
  maxMerges (n : Nat) : l.maxMerges = some n → n ≤ maxCount
  maxMembership (n : Nat) : l.maxMembership = some n → n ≤ maxCount

theorem readYaml_toYaml (hl : l.FitsWords) : readYaml l.toYaml = pure l := by
  have hnames : ([("max_nodes", Yaml.option .nat l.maxNodes),
      ("max_merges", Yaml.option .nat l.maxMerges),
      ("max_pts_membership", Yaml.option .nat l.maxMembership)].map Prod.fst).Nodup := by
    show List.Nodup ["max_nodes", "max_merges", "max_pts_membership"]
    decide
  rw [readYaml, toYaml, Yaml.readEntries_record, pure_bind,
    Yaml.readOptional_limit hnames hl.maxNodes (by simp), pure_bind,
    Yaml.readOptional_limit hnames hl.maxMerges (by simp), pure_bind,
    Yaml.readOptional_limit hnames hl.maxMembership (by simp), pure_bind]

end Limits

/-! ## Configurations -/

namespace Config

variable {c : Config}

/-- The settings as they are written. -/
def block (c : Config) : Yaml.Block :=
  .text "field_sensitive" (Yaml.boolWord c.fieldSensitive)
    (.text "optimize" (Yaml.boolWord c.optimize)
    (.text "offline_cycle_detection" (Yaml.boolWord c.cyclePass)
    (.text "offline_equivalence" (Yaml.boolWord c.equivalencePass)
    (.text "scc_interval" (toString c.sccInterval)
    (.nest "worklist" c.worklist.block
    (.nest "limits" c.limits.block
    (.text "parallel_threshold" (toString c.parallelThreshold)
    (.text "dump_constraints" (Yaml.boolWord c.dumpConstraints)
    (.text "dump_result" (Yaml.boolWord c.dumpResult)
    (.text "dump_debug" (Yaml.boolWord c.dumpDebug) .nil))))))))))

/-- A document as it is written. -/
def documentBlock (c : Config) : Yaml.Block :=
  .text "version" "1" (.text "preset" "balanced" (.nest "overrides" c.block .nil))

/-- The settings by name. -/
def settings (c : Config) : List (String × Yaml) :=
  [("field_sensitive", .bool c.fieldSensitive), ("optimize", .bool c.optimize),
    ("offline_cycle_detection", .bool c.cyclePass),
    ("offline_equivalence", .bool c.equivalencePass), ("scc_interval", .nat c.sccInterval),
    ("worklist", c.worklist.toYaml), ("limits", c.limits.toYaml),
    ("parallel_threshold", .nat c.parallelThreshold),
    ("dump_constraints", .bool c.dumpConstraints), ("dump_result", .bool c.dumpResult),
    ("dump_debug", .bool c.dumpDebug)]

theorem toYaml_full (c : Config) : (Overrides.full c).toYaml = .record c.settings := rfl

theorem record_settings (c : Config) : Yaml.record c.settings = .mapping none c.block.entries := by
  rw [settings, c.worklist.toYaml_eq, c.limits.toYaml_eq]
  rfl

theorem toYaml_toDocument (c : Config) :
    c.toDocument.toYaml =
      .record [("version", .nat 1), ("preset", .plain "balanced"),
        ("overrides", .mapping none c.block.entries)] := by
  rw [← record_settings, ← toYaml_full]
  rfl

theorem isPlain_block (c : Config) : c.block.IsPlain :=
  .text (by decide) (Yaml.isWord_boolWord _) <|
  .text (by decide) (Yaml.isWord_boolWord _) <|
  .text (by decide) (Yaml.isWord_boolWord _) <|
  .text (by decide) (Yaml.isWord_boolWord _) <|
  .text (by decide) (Yaml.isWord_numeral _) <|
  .nest (by decide) (by cases c.worklist <;> exact fun h => nomatch h) c.worklist.isPlain_block <|
  .nest (by decide) (fun h => nomatch h) c.limits.isPlain_block <|
  .text (by decide) (Yaml.isWord_numeral _) <|
  .text (by decide) (Yaml.isWord_boolWord _) <|
  .text (by decide) (Yaml.isWord_boolWord _) <|
  .text (by decide) (Yaml.isWord_boolWord _) .nil

theorem isPlain_documentBlock (c : Config) : c.documentBlock.IsPlain :=
  .text (by decide) (by decide) (.text (by decide) (by decide)
    (.nest (by decide) (fun h => nomatch h) c.isPlain_block .nil))

/-- The numbers of a configuration fit words. -/
structure FitsWords (c : Config) : Prop where
  sccInterval : c.sccInterval ≤ maxCount
  worklist : c.worklist.FitsWords
  limits : c.limits.FitsWords
  parallelThreshold : c.parallelThreshold ≤ maxCount

theorem readYaml_settings (hc : c.FitsWords) :
    Overrides.readYaml (.record c.settings) = pure (.full c) := by
  have hnames : (c.settings.map Prod.fst).Nodup := by
    show fieldNames.Nodup
    decide
  have hknown : Yaml.knownOnly fieldNames c.settings = true := rfl
  have hbool : ∀ name b, (name, Yaml.bool b) ∈ c.settings →
      Yaml.readOptional Yaml.readBool c.settings name = pure (some b) :=
    fun _ _ => Yaml.readOptional_bool hnames
  have hnat : ∀ name n, n ≤ maxCount → (name, Yaml.nat n) ∈ c.settings →
      Yaml.readOptional Yaml.readCount c.settings name = pure (some n) :=
    fun _ _ => Yaml.readOptional_nat hnames
  have hworklist : Yaml.readOptional PopStrategy.readYaml c.settings "worklist" =
      pure (some c.worklist) := by
    refine Yaml.readOptional_of_mem (y := c.worklist.toYaml) hnames (by simp [settings]) ?_
    have hread := PopStrategy.readYaml_toYaml hc.worklist
    rw [PopStrategy.toYaml_eq] at hread ⊢
    exact Yaml.readNullable_mapping hread
  have hlimits : Yaml.readOptional Limits.readYaml c.settings "limits" = pure (some c.limits) := by
    refine Yaml.readOptional_of_mem (y := c.limits.toYaml) hnames (by simp [settings]) ?_
    have hread := Limits.readYaml_toYaml hc.limits
    rw [Limits.toYaml_eq] at hread ⊢
    exact Yaml.readNullable_mapping hread
  rw [Overrides.readYaml, Yaml.readEntries_record]
  simp only [pure_bind, hknown, Bool.not_true, Bool.false_eq_true, if_false, hworklist, hlimits,
    hbool "field_sensitive" c.fieldSensitive (by simp [settings]),
    hbool "optimize" c.optimize (by simp [settings]),
    hbool "offline_cycle_detection" c.cyclePass (by simp [settings]),
    hbool "offline_equivalence" c.equivalencePass (by simp [settings]),
    hnat "scc_interval" c.sccInterval hc.sccInterval (by simp [settings]),
    hnat "parallel_threshold" c.parallelThreshold hc.parallelThreshold (by simp [settings]),
    hbool "dump_constraints" c.dumpConstraints (by simp [settings]),
    hbool "dump_result" c.dumpResult (by simp [settings]),
    hbool "dump_debug" c.dumpDebug (by simp [settings])]
  rfl

end Config

namespace Document

theorem readYaml_toYaml {c : Config} (hc : c.FitsWords) :
    readYaml c.toDocument.toYaml = pure c.toDocument := by
  have hnames : ([("version", Yaml.nat 1), ("preset", Yaml.plain "balanced"),
      ("overrides", Yaml.mapping none c.block.entries)].map Prod.fst).Nodup := by
    show List.Nodup ["version", "preset", "overrides"]
    decide
  have hoverrides : Overrides.readYaml (.mapping none c.block.entries) = pure (.full c) := by
    rw [← Config.record_settings, Config.readYaml_settings hc]
  rw [Config.toYaml_toDocument, readYaml, Yaml.readEntries_record, pure_bind,
    Yaml.readRequired_of_mem hnames (List.mem_cons_self) (Yaml.readNat_nat (by decide)),
    Yaml.readRequired_of_mem hnames (y := .plain "balanced") (a := .balanced) (by simp) rfl,
    Yaml.readOptional_of_mem hnames (y := .mapping none c.block.entries) (by simp)
      (Yaml.readNullable_mapping hoverrides)]
  rfl

/-- The document of a text. -/
def ofYamlText? (s : String) : Option Document := (Yaml.parse? s).bind (·.read? readYaml)

end Document

namespace Config

variable {c : Config}

/-- The text of a configuration, with every setting spelled out, is read to its document. -/
theorem ofYamlText?_toYamlText (hc : c.FitsWords) :
    Document.ofYamlText? c.toYamlText = some c.toDocument := by
  have hparse := Yaml.Block.parse?_text c.isPlain_documentBlock (fun h => nomatch h)
  have hroot : c.toDocument.toYaml = .mapping none c.documentBlock.entries := c.toYaml_toDocument
  have hread := Document.readYaml_toYaml hc
  rw [← hroot] at hparse
  rw [Document.ofYamlText?, toYamlText, hparse, Option.bind_some, Yaml.Composition.read?, hread]
  rfl

/-- A configuration is checked where its document is read. -/
theorem toDocument_toConfig (c : Config) : c.toDocument.toConfig = c.validate.map fun _ => c := by
  rw [Document.toConfig, if_neg (fun h => h rfl), validate]
  simp only [toDocument, Overrides.apply_full]
  cases c.fault? <;> rfl

/-- Reads a configuration from a text if `read` finds the document of it. -/
def ofTextBy (read : String → Option Document) (s : String) : Except ConfigError Config :=
  match read s with
  | some d => d.toConfig
  | none => .error .malformed

theorem ofTextBy_ofYamlText? (s : String) : ofTextBy Document.ofYamlText? s = ofYamlText s := rfl

/-- A configuration is read back from its text if it is valid, and what is wrong with it is found
again if it is not; and so it is with any other way to write documents and to read them that
brings the document back. -/
theorem yaml_roundtrip (hc : c.FitsWords) :
    ofYamlText c.toYamlText = (c.validate.map fun _ => c) ∧
    ∀ (write : Document → String) (read : String → Option Document),
      read (write c.toDocument) = some c.toDocument →
      ofTextBy read (write c.toDocument) = c.validate.map fun _ => c := by
  constructor
  · rw [← ofTextBy_ofYamlText?, ofTextBy, ofYamlText?_toYamlText hc]
    exact c.toDocument_toConfig
  · intro write read hread
    rw [ofTextBy, hread]
    exact c.toDocument_toConfig

/-- Far from the preset that its document names, with numbers that fill a word. -/
def extreme : Config where
  fieldSensitive := false
  optimize := true
  cyclePass := false
  equivalencePass := false
  sccInterval := maxInterval
  worklist := .shuffled maxCount
  limits := { maxNodes := some maxIndex, maxMerges := none, maxMembership := some maxCount }
  parallelThreshold := maxCount
  dumpConstraints := true
  dumpResult := true
  dumpDebug := true

/-- One that is at fault. -/
def faulty : Config := { extreme with optimize := false, cyclePass := true }

theorem yaml_roundtrip_extreme :
    extreme.FitsWords ∧ faulty.FitsWords ∧
      ofYamlText extreme.toYamlText = .ok extreme ∧
      ofYamlText faulty.toYamlText = .error offlineConflict ∧
      ofTextBy Document.ofYamlText? extreme.toDocument.toYaml.text = .ok extreme := by
  have hextreme : extreme.FitsWords :=
    { sccInterval := by decide
      worklist := Nat.le_refl maxCount
      limits :=
        { maxNodes := by decide
          maxMerges := fun n hn => nomatch hn
          maxMembership := by decide }
      parallelThreshold := Nat.le_refl maxCount }
  have hfaulty : faulty.FitsWords :=
    ⟨hextreme.sccInterval, hextreme.worklist, hextreme.limits, hextreme.parallelThreshold⟩
  exact ⟨hextreme, hfaulty, (yaml_roundtrip hextreme).1, (yaml_roundtrip hfaulty).1,
    (yaml_roundtrip hextreme).2 (·.toYaml.text) Document.ofYamlText?
      (ofYamlText?_toYamlText hextreme)⟩

end Config

end PointsTo
