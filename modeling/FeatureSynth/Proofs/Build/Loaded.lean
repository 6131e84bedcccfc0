/-
# What a reduced schema samples

The classes to load are found in rounds, backwards along the used relations.  Relations may
go round in circles.  Each round but the last finds a class of the schema not found before,
so there are no more rounds than classes, and what they find is the least set that holds the
sampled classes and goes on along used relations.

To bind the dimensions in use changes nothing of the space but their links, and leaves each
with its field.  Reduction to these fields then makes of every class its fields again, some
unused ones left out: used are the fields of dimensions, and the relations that were used
and whose target is loaded.
-/
import FeatureSynth.Proofs.Build.Direct
import FeatureSynth.Proofs.Build.FollowBlocks
import FeatureSynth.Proofs.Build.Reduced

namespace FeatureSynth

open Relation (ReflTransGen)

/-! ## Rounds -/

/-- Nothing is left to find after as many rounds as there are names to find. -/
theorem news_saturate {step : List String → List String} {targets : List String}
    (htargets : ∀ known, step known ⊆ targets) : ∀ {rounds : Nat} {known : List String},
      (targets.toFinset \ known.toFinset).card ≤ rounds → news step (saturate step rounds known) = []
  | 0, known, hrounds => by
      refine List.eq_nil_iff_forall_not_mem.mpr fun x hx => ?_
      obtain ⟨hfound, hnew⟩ := mem_news.mp hx
      have hleft : x ∈ targets.toFinset \ known.toFinset :=
        Finset.mem_sdiff.mpr ⟨List.mem_toFinset.mpr (htargets _ hfound), hnew ∘ List.mem_toFinset.mp⟩
      rw [Finset.card_eq_zero.mp (Nat.le_zero.mp hrounds)] at hleft
      exact Finset.notMem_empty x hleft
  | rounds + 1, known, hrounds => by
      unfold saturate
      split
      · assumption
      · rename_i hnews
        obtain ⟨x, hx⟩ := List.exists_mem_of_ne_nil _ hnews
        obtain ⟨hfound, hnew⟩ := mem_news.mp hx
        -- what this round finds is not to be found any more
        have hfewer : targets.toFinset \ (known ++ news step known).toFinset ⊂
            targets.toFinset \ known.toFinset := by
          refine (Finset.ssubset_iff_of_subset ?_).mpr ⟨x, ?_, ?_⟩
          · exact Finset.sdiff_subset_sdiff subset_rfl (by simp)
          · simp [htargets known hfound, hnew]
          · simp [hx]
        exact news_saturate htargets
          (Nat.le_of_lt_succ ((Finset.card_lt_card hfewer).trans_le hrounds))

namespace Schema

variable {s : Schema} {e : Entity} {f : Field} {C D n : String}

/-! ## Loaded classes -/

/-- The least set of classes with the sampled ones and every class that has a used relation to one
in the set. -/
inductive Loads (s : Schema) (sampled : String → Prop) : String → Prop
  | sampled {C : String} (h : sampled C) : Loads s sampled C
  | reaches {e : Entity} {f : Field} {C : String} (he : e ∈ s.entities) (hf : f ∈ e.fields)
      (hused : f.used = true) (hclass : f.type.class? = some C) (h : Loads s sampled C) :
      Loads s sampled e.name

/-- A class of a name has a used relation to another class. -/
def ReachedBy (s : Schema) (C D : String) : Prop :=
  ∃ e ∈ s.entities, e.name = D ∧ ∃ f ∈ e.fields, f.used = true ∧ f.type.class? = some C

theorem leadsInto_iff {loaded : List String} :
    leadsInto loaded f = true ↔ f.used = true ∧ ∃ C, f.type.class? = some C ∧ C ∈ loaded := by
  cases hclass : f.type.class? <;> simp [leadsInto, hclass]

theorem mem_reaching {loaded : List String} : D ∈ s.reaching loaded ↔
    ∃ e ∈ s.entities, e.name = D ∧ ∃ f ∈ e.fields, leadsInto loaded f = true := by
  simp only [reaching, List.mem_map, List.mem_filter, List.any_eq_true]
  constructor
  · rintro ⟨e, ⟨he, hleads⟩, hname⟩
    exact ⟨e, he, hname, hleads⟩
  · rintro ⟨e, he, hname, hleads⟩
    exact ⟨e, ⟨he, hleads⟩, hname⟩

theorem stepsAlong_reaching (s : Schema) : StepsAlong s.ReachedBy s.reaching := by
  intro loaded D
  rw [mem_reaching]
  constructor
  · rintro ⟨e, he, hname, f, hf, hleads⟩
    obtain ⟨hused, C, hclass, hC⟩ := leadsInto_iff.mp hleads
    exact ⟨C, hC, e, he, hname, f, hf, hused, hclass⟩
  · rintro ⟨C, hC, e, he, hname, f, hf, hused, hclass⟩
    exact ⟨e, he, hname, f, hf, leadsInto_iff.mpr ⟨hused, C, hclass, hC⟩⟩

/-- The rounds end by themselves, whatever relations there are. -/
theorem news_loadedClasses (s : Schema) (sampled : List String) :
    news s.reaching (s.loadedClasses sampled) = [] := by
  have hclasses : ∀ known, s.reaching known ⊆ s.entities.map (·.name) := by
    intro known D hD
    obtain ⟨e, he, rfl, -⟩ := mem_reaching.mp hD
    exact List.mem_map_of_mem he
  refine news_saturate hclasses ?_
  calc _ ≤ (s.entities.map (·.name)).toFinset.card := Finset.card_le_card Finset.sdiff_subset
    _ ≤ (s.entities.map (·.name)).length := List.toFinset_card_le _
    _ = s.entities.length := List.length_map _

theorem loads_of_chain {sampled : String → Prop} (hC : s.Loads sampled C)
    (hchain : ReflTransGen s.ReachedBy C D) : s.Loads sampled D := by
  induction hchain with
  | refl => exact hC
  | tail _ hlast ih =>
    obtain ⟨e, he, rfl, f, hf, hused, hclass⟩ := hlast
    exact .reaches he hf hused hclass ih

/-- What the rounds find is the least set. -/
theorem mem_loadedClasses {sampled : List String} :
    C ∈ s.loadedClasses sampled ↔ s.Loads (· ∈ sampled) C := by
  constructor
  · intro hC
    obtain ⟨D, hD, hchain⟩ := exists_of_mem_saturate (stepsAlong_reaching s) hC
    exact loads_of_chain (.sampled (List.mem_eraseDups.mp hD)) hchain
  · intro hC
    induction hC with
    | sampled h => exact mem_saturate_of_mem (List.mem_eraseDups.mpr h)
    | @reaches e f C he hf hused hclass _ ih =>
      exact mem_of_news (stepsAlong_reaching s) (news_loadedClasses s sampled) ih
        ⟨e, he, rfl, f, hf, hused, hclass⟩

/-- Orders know their customers and customers their orders. -/
example : (⟨[⟨"Customer", [.native "Orders" (.objectArray "Orders")], []⟩,
    ⟨"Orders", [.native "Customer" (.object "Customer")], []⟩]⟩ : Schema).loadedClasses ["Orders"] =
      ["Orders", "Customer"] := by decide

end Schema

/-! ## Reduced classes -/

/-- A class reduced to what it takes to sample some fields of it while some classes are loaded. -/
structure Entity.ReducedTo (e e' : Entity) (sampled loads : String → Prop) : Prop where
  name : e'.name = e.name
  fields : ∀ f' ∈ e'.fields, ∃ f ∈ e.fields, f' = { f with used := f'.used, loaded := f'.loaded }
  /-- Used are the sampled fields and the relations that were used and lead to a loaded class. -/
  used : ∀ f ∈ e.fields, (∃ f' ∈ e'.fields, f'.name = f.name ∧ f'.used = true) ↔
    sampled f.name ∨ f.used = true ∧ ∃ C, f.type.class? = some C ∧ loads C
  loaded : ∀ f' ∈ e'.fields, f'.used = true → f'.loaded = true
  stored : ∀ f ∈ e.fields, f.isStored = true →
    ∃ f' ∈ e'.fields, f' = { f with used := f'.used, loaded := f'.loaded }

namespace Schema

variable {s : Schema} {e : Entity} {f f' : Field} {C : String} {kept : List FieldPath}

theorem mem_fields_useOnlyIn : f' ∈ (useOnlyIn kept e).fields ↔ ∃ f ∈ e.fields,
    (if kept.contains ⟨e.name, f.name⟩ then { f with used := true, loaded := true }
      else { f with used := false }) = f' :=
  List.mem_map

/-- A field with new marks: it is used if it is to be kept, and then it is loaded. -/
theorem of_mem_fields_useOnlyIn (h : f' ∈ (useOnlyIn kept e).fields) : ∃ f ∈ e.fields,
    f' = { f with used := f'.used, loaded := f'.loaded } ∧
      (f'.used = true ↔ ⟨e.name, f.name⟩ ∈ kept) ∧ (f'.used = true → f'.loaded = true) := by
  obtain ⟨f, hf, rfl⟩ := mem_fields_useOnlyIn.mp h
  refine ⟨f, hf, ?_⟩
  by_cases hkept : (⟨e.name, f.name⟩ : FieldPath) ∈ kept <;> simp [hkept]

theorem mem_loadedRelations {loaded : List String} {p : FieldPath} :
    p ∈ s.loadedRelations loaded ↔ ∃ e ∈ s.entities, e.name ∈ loaded ∧
      ∃ f ∈ e.fields, leadsInto loaded f = true ∧ (⟨e.name, f.name⟩ : FieldPath) = p := by
  simp [loadedRelations, and_assoc]

/-- Under names that differ, the relations between loaded classes are the used ones that lead to
one: the class they start from is then loaded as well. -/
theorem mem_loadedRelations_of_nodup (hclasses : (s.entities.map (·.name)).Nodup)
    (hfields : (e.fields.map (·.name)).Nodup) (he : e ∈ s.entities) (hf : f ∈ e.fields)
    {sampled : List String} :
    ⟨e.name, f.name⟩ ∈ s.loadedRelations (s.loadedClasses sampled) ↔
      f.used = true ∧ ∃ C, f.type.class? = some C ∧ s.Loads (· ∈ sampled) C := by
  simp only [mem_loadedRelations, leadsInto_iff, mem_loadedClasses]
  constructor
  · rintro ⟨d, hd, -, g, hg, hleads, hpath⟩
    obtain ⟨hname, hfield⟩ := FieldPath.mk.inj hpath
    obtain rfl := List.inj_on_of_nodup_map hclasses hd he hname
    obtain rfl := List.inj_on_of_nodup_map hfields hg hf hfield
    exact hleads
  · rintro ⟨hused, C, hclass, hC⟩
    exact ⟨e, he, .reaches he hf hused hclass hC, f, hf, ⟨hused, C, hclass, hC⟩, rfl⟩

/-- Every class is reduced as the sampled fields and the classes loaded for them ask for. -/
theorem reducedTo_keepNeeded (hclasses : (s.entities.map (·.name)).Nodup)
    (hfields : (e.fields.map (·.name)).Nodup) (he : e ∈ s.entities) (sampled : List FieldPath)
    (needed : List String) :
    e.ReducedTo (keepNeeded needed (useOnlyIn
        (sampled ++ s.loadedRelations (s.loadedClasses (sampled.map (·.className)))) e))
      (⟨e.name, ·⟩ ∈ sampled) (s.Loads (· ∈ sampled.map (·.className))) where
  name := rfl
  fields := by
    intro f' hf'
    obtain ⟨f, hf, hmarks, -⟩ := of_mem_fields_useOnlyIn (mem_fields_keepNeeded.mp hf').1
    exact ⟨f, hf, hmarks⟩
  used := by
    intro f hf
    rw [← mem_loadedRelations_of_nodup hclasses hfields he hf, ← List.mem_append]
    constructor
    · rintro ⟨f', hf', hname, hused⟩
      obtain ⟨g, hg, hmarks, hkept, -⟩ := of_mem_fields_useOnlyIn (mem_fields_keepNeeded.mp hf').1
      have hsame : g.name = f.name := (congrArg Field.name hmarks).symm.trans hname
      exact hsame ▸ hkept.mp hused
    · intro hkept
      refine ⟨{ f with used := true, loaded := true }, mem_fields_keepNeeded.mpr ⟨?_, .inl rfl⟩,
        rfl, rfl⟩
      exact mem_fields_useOnlyIn.mpr ⟨f, hf, if_pos (List.contains_iff_mem.mpr hkept)⟩
  loaded := by
    intro f' hf'
    obtain ⟨-, -, -, -, hloaded⟩ := of_mem_fields_useOnlyIn (mem_fields_keepNeeded.mp hf').1
    exact hloaded
  stored := by
    intro f hf hstored
    obtain ⟨f', hf', hmarks⟩ : ∃ f' ∈ (useOnlyIn (sampled ++ s.loadedRelations
        (s.loadedClasses (sampled.map (·.className)))) e).fields,
        f' = { f with used := f'.used, loaded := f'.loaded } := by
      refine ⟨_, mem_fields_useOnlyIn.mpr ⟨f, hf, rfl⟩, ?_⟩
      split <;> rfl
    have hstored' : f'.isStored = true := by
      rw [hmarks]
      exact hstored
    exact ⟨f', mem_fields_keepNeeded.mpr ⟨hf', .inr (.inl hstored')⟩, hmarks⟩

end Schema

/-! ## Bound dimensions -/

/-- A dimension is linked to a field, and one that is a field to that field. -/
def Dimension.Linked (d : Dimension) : Prop :=
  ∃ name, d.selectionField = some name ∧ ∀ n t, d.origin = .field n t → n = name

namespace Space

/-- The dimension of a rank, if there is one, is linked to a field. -/
def LinkedAt (s : Space) (k : Nat) : Prop := ∀ d, s.dimensions[k]? = some d → d.Linked

/-- A field of a class holds the values of a dimension in use. -/
def Samples (s : Space) (C name : String) : Prop :=
  ∃ d ∈ s.dimensions, 0 < d.uses ∧ d.className = C ∧ d.selectionField = some name

/-- A class has a dimension in use. -/
def UsesClass (s : Space) (C : String) : Prop := ∃ d ∈ s.dimensions, 0 < d.uses ∧ d.className = C

variable {s s' : Space}

theorem mem_sampledFields {C name : String} : ⟨C, name⟩ ∈ s.sampledFields ↔ s.Samples C name := by
  simp only [sampledFields, Samples, List.mem_filterMap]
  refine exists_congr fun d => and_congr_right fun _ => ?_
  by_cases huses : 0 < d.uses <;> simp [huses, and_comm]

/-- A dimension gets a link, and no other changes. -/
theorem linkedAt_modify {k : Nat} {name : String}
    (hname : ∀ d n t, s.dimensions[k]? = some d → d.origin = .field n t → n = name) (j : Nat)
    (hj : j = k ∨ s.LinkedAt j) :
    (s.modifyDimension k fun d => { d with selectionField := some name }).LinkedAt j := by
  intro d' hd'
  by_cases hk : k = j
  · subst hk
    simp only [modifyDimension, List.getElem?_modify_eq, Option.map_eq_map,
      Option.map_eq_some_iff] at hd'
    obtain ⟨d, hd, rfl⟩ := hd'
    exact ⟨name, rfl, fun n t => hname d n t hd⟩
  · rw [modifyDimension, List.getElem?_modify_ne _ _ hk] at hd'
    exact hj.resolve_left (Ne.symm hk) d' hd'

theorem clearLinks_modify (s : Space) (k : Nat) (name : String) :
    (s.modifyDimension k fun d => { d with selectionField := some name }).clearLinks =
      s.clearLinks := by
  have hdims := map_modify_of_comp (g := fun d : Dimension => { d with selectionField := none })
    (f := fun d => { d with selectionField := some name }) (fun _ => rfl) s.dimensions k
  simp only [clearLinks, modifyDimension, hdims]

theorem clearLinks_clearLinks (s : Space) : s.clearLinks.clearLinks = s.clearLinks := by
  simp [clearLinks, Function.comp_def]

/-- Which classes have dimensions in use does not depend on links. -/
theorem usesClass_of_clearLinks (h : s'.clearLinks = s.clearLinks) : s'.UsesClass = s.UsesClass := by
  have hmap : ∀ t : Space, t.UsesClass = fun C => ∃ d ∈ t.clearLinks.dimensions,
      0 < d.uses ∧ d.className = C := by
    intro t
    funext C
    simp [UsesClass, clearLinks]
  rw [hmap, h, hmap]

end Space

namespace Build

open BuildState

variable {o : Options} {b b' : BuildState} {n : String} {u : Unit}

theorem sameSpace_directField (r : Rule) :
    Respects (fun b b' => b'.space = b.space) (directField r) := by
  have hclosed := parts_sameSpace.closed
  refine hclosed.bind (hclosed.record _) fun c => hclosed.bind hclosed.get fun _ =>
    hclosed.bind (hclosed.lift _) ?_
  rintro ⟨existing, c'⟩
  have hset : Respects (fun b b' => b'.space = b.space) (setRecord r.className c') := by
    intro b u b' h
    rw [gives_setRecord.mp h]
  refine hclosed.bind hset fun _ => ?_
  cases existing with
  | some name => exact hclosed.bind (parts_sameSpace.note _ fun _ => rfl) fun _ => hclosed.pure name
  | none =>
    exact hclosed.bind hclosed.get fun _ => hclosed.bind (hclosed.lift _) fun _ =>
      keepsMemos_fieldFor.imp And.left

/-- The field of a dimension is found without a change to the space; a dimension that is a field
has that one. -/
theorem sameSpace_dimensionField {d : Dimension} (h : (dimensionField o d).Gives b n b') :
    b'.space = b.space ∧ ∀ name t, d.origin = .field name t → name = n := by
  unfold dimensionField at h
  split at h
  · rename_i name t horigin
    obtain ⟨rfl, rfl⟩ := gives_pure.mp h
    refine ⟨rfl, fun name' t' horigin' => ?_⟩
    exact (DimensionOrigin.field.inj (horigin'.symm.trans horigin)).1
  · rename_i r horigin
    refine ⟨?_, fun name t horigin' => ?_⟩
    · split at h
      · obtain ⟨_, b₁, hcollect, hfield⟩ := gives_bind.mp h
        rw [collectFields, gives_modify] at hcollect
        have hspace : b₁.space = b.space := by rw [hcollect]
        exact (closed_sharedField parts_sameSpace r hfield).trans hspace
      · exact sameSpace_directField r h
    · cases horigin'.symm.trans horigin

/-- To bind a dimension is to link it to a field. -/
theorem bindDimension_cases {k : Nat} (h : (bindDimension o k).Gives b u b') : ∃ name,
    (∀ d n t, b.space.dimensions[k]? = some d → d.origin = .field n t → n = name) ∧
      b'.space = b.space.modifyDimension k fun d => { d with selectionField := some name } := by
  obtain ⟨_, b₁, hcheck, h⟩ := gives_bind.mp h
  obtain ⟨-, rfl⟩ := gives_checkInterrupt.mp hcheck
  rw [gives_get_bind] at h
  cases hd : b.space.dimensions[k]? with
  | none =>
    rw [hd] at h
    obtain ⟨-, rfl⟩ := gives_pure.mp h
    refine ⟨"", fun d n t hd' => ?_, ?_⟩
    · cases hd'
    · rw [Space.modifyDimension, List.modify_eq_self (List.getElem?_eq_none_iff.mp hd)]
  | some d =>
    rw [hd] at h
    obtain ⟨name, b₂, hfield, hbind⟩ := gives_bind.mp h
    obtain ⟨hspace, hname⟩ := sameSpace_dimensionField hfield
    rw [gives_modify] at hbind
    subst hbind
    refine ⟨name, fun d' n t hd' => ?_, ?_⟩
    · obtain rfl := Option.some.inj hd'
      exact hname n t
    · rw [← hspace]

/-- All dimensions bound in turn are linked, and nothing but links changes. -/
theorem linked_bindAll : ∀ {ranks : List Nat} {b b' : BuildState} {u : Unit},
    (forM ranks (bindDimension o)).Gives b u b' → b'.space.clearLinks = b.space.clearLinks ∧
      ∀ k, k ∈ ranks ∨ b.space.LinkedAt k → b'.space.LinkedAt k
  | [], b, b', u, h => by
      rw [gives_forM_nil.mp h]
      exact ⟨rfl, fun k hk => hk.resolve_left List.not_mem_nil⟩
  | k :: ranks, b, b', u, h => by
      obtain ⟨b₁, hone, hrest⟩ := gives_forM_cons.mp h
      obtain ⟨name, hname, hspace⟩ := bindDimension_cases hone
      obtain ⟨hclear, hlinked⟩ := linked_bindAll hrest
      refine ⟨hclear.trans (hspace ▸ Space.clearLinks_modify _ _ _), fun j hj => hlinked j ?_⟩
      have hone' := Space.linkedAt_modify hname j
      rw [← hspace] at hone'
      rcases hj with hj | hj
      · exact (List.mem_cons.mp hj).symm.imp_right fun h => hone' (.inl h)
      · exact .inr (hone' (.inr hj))

/-- The dimensions in use are linked once they are bound, and nothing but links changes. -/
theorem linked_bindDimensions (h : (bindDimensions o).Gives b u b') :
    b'.space.clearLinks = b.space.clearLinks ∧ ∀ k, b.space.Used k → b'.space.LinkedAt k := by
  simp only [bindDimensions, gives_get_bind] at h
  obtain ⟨_, b₁, hall, harrange⟩ := gives_bind.mp h
  rw [gives_get_bind] at harrange
  rw [(sameLedgers_arrangeFields _ harrange).space]
  obtain ⟨hclear, hlinked⟩ := linked_bindAll hall
  exact ⟨hclear, fun k hk => hlinked k (.inl (Space.mem_usedDimensions.mpr hk))⟩

end Build

section Bound

open Build BuildState

variable {catalogue : Catalogue} {o : Options} {schema : Schema} {space : Space}
variable {interrupt : Interrupt} {b : BuildState}

/-- Binding changes links only, and leaves no dimension in use without one. -/
theorem linked_bindSchema (h : bindSchema catalogue o schema space interrupt = (.ok (), b)) :
    b.space.clearLinks = space.clearLinks ∧ ∀ d ∈ b.space.dimensions, 0 < d.uses → d.Linked := by
  have hrun : (bindDimensions o).Gives (start catalogue o schema space interrupt) () b := h
  obtain ⟨hclear, hlinked⟩ := linked_bindDimensions hrun
  refine ⟨hclear.trans (Space.clearLinks_clearLinks space), fun d hd huses => ?_⟩
  obtain ⟨k, hk⟩ := List.mem_iff_getElem?.mp hd
  refine hlinked k ?_ d hk
  -- the dimension was in use before it got its link
  have hat := congrArg (fun t : Space => t.dimensions[k]?) hclear
  simp only [Space.clearLinks, List.getElem?_map, hk, Option.map_some] at hat
  obtain ⟨d₀, hd₀, heq⟩ := Option.map_eq_some_iff.mp hat.symm
  exact ⟨d₀, hd₀, (congrArg Dimension.uses heq).symm ▸ huses⟩

/-- When the dimensions in use are bound, and the schema is reduced to their fields: with the least
set of classes that holds those of the dimensions in use and every class with a used relation into
the set, a field of the reduced schema is used exactly if it holds the values of a dimension in use
or is a relation that was used and leads into the set.  Such fields are loaded, and stored ones
stay.  The set is found in rounds that end for every schema. -/
theorem bindSchema_samples_exactly (hschema : schema.compile = .ok ())
    (hbind : bindSchema catalogue o schema space interrupt = (.ok (), b)) :
    b.space.clearLinks = space.clearLinks ∧
      (∀ d ∈ b.space.dimensions, 0 < d.uses → d.Linked) ∧
      List.Forall₂
        (fun e e' => e.ReducedTo e' (b.space.Samples e.name) (b.schema.Loads space.UsesClass))
        b.schema.entities b.reduced.entities ∧
      ∀ (s : Schema) (sampled : List String), news s.reaching (s.loadedClasses sampled) = [] := by
  obtain ⟨hclear, hlinked⟩ := linked_bindSchema hbind
  obtain ⟨hclasses, hdiffer⟩ := bindSchema_names hschema hbind
  refine ⟨hclear, hlinked, ?_, Schema.news_loadedClasses⟩
  have hsampled : (· ∈ b.space.sampledFields.map (·.className)) = space.UsesClass := by
    rw [← Space.usesClass_of_clearLinks hclear]
    funext C
    refine propext ⟨fun hC => ?_, fun ⟨d, hd, huses, hname⟩ => ?_⟩
    · obtain ⟨⟨_, name⟩, hp, rfl⟩ := List.mem_map.mp hC
      obtain ⟨d, hd, huses, hname, -⟩ := Space.mem_sampledFields.mp hp
      exact ⟨d, hd, huses, hname⟩
    · obtain ⟨name, hfield, -⟩ := hlinked d hd huses
      exact List.mem_map.mpr
        ⟨⟨C, name⟩, Space.mem_sampledFields.mpr ⟨d, hd, huses, hname, hfield⟩, rfl⟩
  have hsamples : ∀ C, (⟨C, ·⟩ ∈ b.space.sampledFields) = b.space.Samples C :=
    fun C => funext fun name => propext Space.mem_sampledFields
  simp only [reduced, Schema.reduceTo, Schema.dropUnneeded, Schema.useOnly, List.map_map,
    List.forall₂_map_right_iff]
  refine List.forall₂_same.mpr fun e he => ?_
  rw [← hsampled, ← hsamples]
  exact Schema.reducedTo_keepNeeded hclasses (List.nodup_append.mp (hdiffer e he)).1 he
    b.space.sampledFields _

end Bound

open SmallOrders in
/-- The customers of shops are loaded for the count of their small orders, and so are the shops. -/
theorem smallOrders_samples_exactly :
    schema.compile = .ok () ∧ binding = (.ok (), binding.2) ∧
      binding.2.space.clearLinks = space.clearLinks ∧
      (∀ d ∈ binding.2.space.dimensions, 0 < d.uses → d.Linked) ∧
      List.Forall₂
        (fun e e' => e.ReducedTo e' (binding.2.space.Samples e.name)
          (binding.2.schema.Loads space.UsesClass))
        binding.2.schema.entities binding.2.reduced.entities ∧
      ∀ (s : Schema) (sampled : List String), news s.reaching (s.loadedClasses sampled) = [] :=
  ⟨compile_schema, binding_eq, bindSchema_samples_exactly compile_schema binding_eq⟩

end FeatureSynth
