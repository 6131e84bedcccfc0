/-
# Numbers without gaps

Where names are not readable each field and block made draws the next number, and where
no name of the schema is one of the numbers, the number drawn is free as it stands.  So
at every point of a build that goes well the names of what was created are the numbers
given out up to there, each once.

The step is one lemma for everything that is made: a number more is given out for each
name more.  What is not made leaves source, lists and names alone, up to order.
-/
import Mathlib.Data.List.Range
import FeatureSynth.Proofs.Build.Creation
import FeatureSynth.Proofs.Build.Optimized
import FeatureSynth.Proofs.Build.Whole
import FeatureSynth.Proofs.Rule.BlockName

namespace FeatureSynth

/-! ## Numbers -/

namespace NameSource

/-- The name with a number, counted from nought. -/
def numberName (i : Nat) : String := "ConstructedFeature" ++ toString (i + 1)

/-- Whether a name begins as the names with numbers do. -/
def Reserved (n : String) : Prop := "ConstructedFeature".toList <+: n.toList

theorem numberName_inj {i j : Nat} (h : numberName i = numberName j) : i = j := by
  unfold numberName at h
  have hrepr := (String.append_right_inj "ConstructedFeature").mp h
  exact Nat.succ.inj (Nat.repr_inj.mp hrepr)

theorem reserved_numberName (i : Nat) : Reserved (numberName i) := by
  unfold Reserved numberName
  exact ⟨(toString (i + 1)).toList, String.toList_append.symm⟩

theorem next_eq (n : NameSource) : n.next = (numberName n.last, ⟨n.readable, n.last + 1⟩) := by
  unfold next numberName
  rfl

/-- Where names are not readable, what is drawn is the next number. -/
theorem Draws.eq_next {n n' : NameSource} {stem : String} (h : n.Draws stem n')
    (hn : n.readable = false) : stem = numberName n.last ∧ n' = ⟨false, n.last + 1⟩ := by
  obtain ⟨readable, h⟩ := h
  rcases choose_eq_ok h with ⟨hr, -⟩ | ⟨-, rfl, rfl⟩
  · rw [hn] at hr
    cases hr
  · rw [next_eq, hn]
    exact ⟨rfl, rfl⟩

end NameSource

namespace BuildState

open NameSource

/-- Names of created fields and blocks. -/
def createdNames (b : BuildState) : List String := (b.createdFields ++ b.createdBlocks).map (·.name)

/-- The names created are the numbers given out, each once, and no other name of the schema could be
taken for a number. -/
structure Numbered (b : BuildState) : Prop where
  numbers : b.names.readable = false
  created : b.createdNames.Perm ((List.range b.names.last).map numberName)
  reserved : ∀ C e, b.schema.entity? C = some e → ∀ n ∈ e.names, Reserved n →
    ∃ i < b.names.last, n = numberName i

variable {b b' : BuildState} {C : String} {e : Entity}

/-- The next number is free. -/
theorem Numbered.number_free (h : b.Numbered) (he : b.schema.entity? C = some e) {i : Nat}
    (hi : b.names.last ≤ i) : numberName i ∉ e.names := by
  intro hmem
  obtain ⟨j, hj, hij⟩ := h.reserved C e he _ hmem (reserved_numberName i)
  exact absurd (numberName_inj hij) (by omega)

theorem Numbered.freeName_eq (h : b.Numbered) (he : b.schema.entity? C = some e) {i : Nat}
    (hi : b.names.last ≤ i) : e.freeName (numberName i) = numberName i := by
  rw [Entity.freeName, if_neg fun htaken => h.number_free he hi (Entity.hasName_iff.mp htaken)]

/-- A field under the next number was not created before. -/
theorem Numbered.noted_eq (h : b.Numbered) (C : String) :
    b.noted C (numberName b.names.last) = b.createdFields ++ [⟨C, numberName b.names.last⟩] := by
  rw [noted, if_neg]
  intro hcreated
  have hmem : numberName b.names.last ∈ b.createdNames :=
    List.mem_map_of_mem (f := FieldPath.name)
      (List.mem_append_left _ (by simpa [isCreated] using hcreated))
  obtain ⟨i, hi, heq⟩ := List.mem_map.mp (h.created.mem_iff.mp hmem)
  have := numberName_inj heq
  exact absurd (List.mem_range.mp hi) (by omega)

/-- With as many numbers more as names. -/
theorem Numbered.of_names (h : b.Numbered) (he : b.schema.entity? C = some e) {e' : Entity}
    (hname : e'.name = e.name) (hschema : b'.schema = b.schema.setEntity C e') {k : Nat}
    (hnames : b'.names = ⟨false, b.names.last + k⟩)
    (hentity : e'.names.Perm
      (e.names ++ (List.range k).map fun i => numberName (b.names.last + i)))
    (hcreated : b'.createdNames.Perm
      (b.createdNames ++ (List.range k).map fun i => numberName (b.names.last + i))) :
    b'.Numbered where
  numbers := by rw [hnames]
  created := by
    rw [hnames, List.range_add, List.map_append, List.map_map]
    exact hcreated.trans (h.created.append_right _)
  reserved := by
    intro D d hd n hn hreserved
    rw [hnames]
    by_cases hD : C = D
    · subst hD
      rw [hschema, Schema.entity?_setEntity he hname] at hd
      cases hd
      rcases List.mem_append.mp (hentity.mem_iff.mp hn) with hold | hnew
      · obtain ⟨i, hi, rfl⟩ := h.reserved C e he n hold hreserved
        exact ⟨i, Nat.lt_add_right k hi, rfl⟩
      · obtain ⟨i, hi, rfl⟩ := List.mem_map.mp hnew
        exact ⟨b.names.last + i, Nat.add_lt_add_left (List.mem_range.mp hi) _, rfl⟩
    · rw [hschema, Schema.entity?_setEntity_ne (hname.trans (Schema.name_of_entity? he)) hD] at hd
      obtain ⟨i, hi, rfl⟩ := h.reserved D d hd n hn hreserved
      exact ⟨i, Nat.lt_add_right k hi, rfl⟩

/-- What is made takes the next number, or the next two. -/
theorem Numbered.of_makes (h : b.Numbered) (hmakes : Makes b b') : b'.Numbered := by
  cases hmakes with
  | field he hdraws hgains hschema hfields hblocks =>
    obtain ⟨rfl, hnames⟩ := hdraws.eq_next h.numbers
    rw [h.freeName_eq he le_rfl] at hgains hfields
    rw [h.noted_eq] at hfields
    refine h.of_names (k := 1) he hgains.name_eq hschema hnames hgains.names_perm ?_
    rw [createdNames, createdNames, hfields, hblocks]
    simp only [List.map_append, List.append_assoc]
    exact List.perm_append_comm.append_left _
  | @block C stem stem' e φ t key names he hdraws hdraws' hschema hfields hblocks =>
    obtain ⟨rfl, rfl⟩ := hdraws.eq_next h.numbers
    obtain ⟨rfl, hnames⟩ := hdraws'.eq_next rfl
    dsimp only at hnames hschema hblocks
    rw [h.freeName_eq he le_rfl] at hfields hschema
    rw [h.freeName_eq he (Nat.le_succ _)] at hschema hblocks
    rw [h.noted_eq] at hfields
    have hname : (e.addBlock ⟨numberName (b.names.last + 1), φ⟩
        (.member (numberName b.names.last) t "" key)).name = e.name := rfl
    refine h.of_names (k := 2) he hname hschema hnames Entity.names_addBlock ?_
    rw [createdNames, createdNames, hfields, hblocks]
    simp only [List.map_append, List.append_assoc]
    refine List.Perm.append_left _ ?_
    rw [← List.append_assoc]
    refine (List.perm_append_comm.append_right _).trans (.of_eq ?_)
    simp [List.range_succ]

/-- Marks and moves take no number. -/
theorem Numbered.of_edit (h : b.Numbered) {change : Entity → Except BuildError Entity}
    (hchange : Build.Tidies change) {u : Unit} (hrun : (Build.edit C change).Gives b u b') :
    b'.Numbered := by
  obtain ⟨e, e', he, hok, rfl⟩ := Build.gives_edit.mp hrun
  obtain ⟨hname, hcores, hblocks⟩ := hchange e e' hok
  refine h.of_names (k := 0) he hname rfl ?_ ?_ (.of_eq (by simp [createdNames]))
  · rw [← h.numbers]
    rfl
  · simpa using Entity.names_of_perm hcores hblocks

end BuildState

namespace Build

open BuildState

theorem making_numbered : Making fun b b' => b.Numbered → b'.Numbered where
  refl := fun _ => id
  trans := fun h h' => h' ∘ h
  still := fun hstill h => by
    refine ⟨by rw [hstill.names]; exact h.numbers, ?_, ?_⟩
    · rw [createdNames, hstill.fields, hstill.blocks, hstill.names]
      exact h.created
    · rw [hstill.schema, hstill.names]
      exact h.reserved
  makes := fun hmakes h => h.of_makes hmakes

theorem tidying_numbered :
    Tidying (fun m => Respects (fun b b' => b.Numbered → b'.Numbered) m) where
  closed := making_numbered.closed
  edit := fun _ _ hchange _ _ _ hrun h => h.of_edit hchange hrun

end Build

section Whole

open BuildState NameSource

/-- Where names are numbers and no field or block of the schema has a name like them, the names of
the fields and blocks that a build creates are the numbers from one on, each once. -/
theorem runBuild_numbers {catalogue : Catalogue} {o : Options} {schema : Schema} {space : Space}
    {rules : List Rule} {interrupt : Interrupt} {b : BuildState} (ho : o.readableNames = false)
    (hschema : ∀ e ∈ schema.entities, ∀ n ∈ e.names,
      ¬ "ConstructedFeature".toList <+: n.toList)
    (h : runBuild catalogue o schema space rules interrupt = (.ok (), b)) :
    ((b.createdFields ++ b.createdBlocks).map (·.name)).Perm
      ((List.range (b.createdFields.length + b.createdBlocks.length)).map fun i =>
        "ConstructedFeature" ++ toString (i + 1)) := by
  obtain ⟨b₁, hlay, rfl, -⟩ := runBuild_eq_ok h
  have hstart : (start catalogue o schema space interrupt).Numbered :=
    { numbers := ho
      created := .refl _
      reserved := fun C e he n hn hreserved =>
        absurd hreserved (hschema e (Schema.mem_of_entity? he) n hn) }
  have hend := Build.making_numbered.layOut Build.tidying_numbered o rules hlay hstart
  have hcount := hend.created.length_eq
  rw [createdNames, List.length_map, List.length_append, List.length_map, List.length_range]
    at hcount
  have hcreated := hend.created
  rw [← hcount] at hcreated
  exact hcreated

end Whole

namespace EarlyOrders

/-- The mean day of the early orders in blocks, under numbers for names. -/
def numberedBuild : Except BuildError Unit × BuildState :=
  runBuild .default { Options.default with sparse := true, readableNames := false } schema space
    [yearDay, mean] .never

end EarlyOrders

open EarlyOrders in
/-- The mean of the early orders takes three fields and two blocks, and so the numbers up to
five. -/
theorem earlyMean_numbers :
    (∀ e ∈ schema.entities, ∀ n ∈ e.names, ¬ "ConstructedFeature".toList <+: n.toList) ∧
      numberedBuild.1 = .ok () ∧ numberedBuild.2.createdFields.length = 3 ∧
      numberedBuild.2.createdBlocks.length = 2 ∧
      ((numberedBuild.2.createdFields ++ numberedBuild.2.createdBlocks).map (·.name)).Perm
        ["ConstructedFeature1", "ConstructedFeature2", "ConstructedFeature3", "ConstructedFeature4",
          "ConstructedFeature5"] := by
  have hschema : ∀ e ∈ schema.entities, ∀ n ∈ e.names,
      ¬ "ConstructedFeature".toList <+: n.toList := by decide
  have hbuild : numberedBuild.1.isOk = true := by decide +kernel
  have hfields : numberedBuild.2.createdFields.length = 3 := by decide +kernel
  have hblocks : numberedBuild.2.createdBlocks.length = 2 := by decide +kernel
  have hnumbers : ((numberedBuild.2.createdFields ++ numberedBuild.2.createdBlocks).map
      (·.name)).Perm ((List.range
        (numberedBuild.2.createdFields.length + numberedBuild.2.createdBlocks.length)).map fun i =>
          "ConstructedFeature" ++ toString (i + 1)) :=
    runBuild_numbers rfl hschema (run_eq_of_isOk hbuild)
  have hfive : ((List.range (3 + 2)).map fun i => "ConstructedFeature" ++ toString (i + 1)) =
      ["ConstructedFeature1", "ConstructedFeature2", "ConstructedFeature3", "ConstructedFeature4",
        "ConstructedFeature5"] := by decide +kernel
  rw [hfields, hblocks, hfive] at hnumbers
  exact ⟨hschema, eq_ok_of_isOk hbuild, hfields, hblocks, hnumbers⟩

end FeatureSynth
