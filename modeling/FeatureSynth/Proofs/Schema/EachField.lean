/-
# Schemas changed field by field

A mark changes the field of one name in one class, the final costs change every field.  As
names differ, both are a function applied to the fields of a schema, each in its place; so
marks can be composed, and what they come to can be compared with the schema there was.
-/
import FeatureSynth.Proofs.Schema.Core
import FeatureSynth.Proofs.Schema.Later

namespace FeatureSynth

/-- Where keys differ, the first element of a key is the only one. -/
theorem replaceFirst_of_nodup {α : Type} {key : α → String} (a : String) (change : α → α) :
    ∀ {l : List α}, (l.map key).Nodup →
      replaceFirst (fun x => key x == a) change l = l.map fun x => if key x = a then change x else x
  | [], _ => rfl
  | x :: xs, h => by
      obtain ⟨hx, hxs⟩ := List.nodup_cons.mp h
      by_cases hkey : key x = a
      · have hrest : xs.map (fun y => if key y = a then change y else y) = xs := by
          refine (List.map_congr_left fun y hy => if_neg fun heq => hx ?_).trans xs.map_id
          rw [hkey, ← heq]
          exact List.mem_map_of_mem hy
        simp [replaceFirst, hkey, hrest]
      · simp [replaceFirst, hkey, replaceFirst_of_nodup a change hxs]

namespace Schema

/-- A schema with every field changed, by its class. -/
def mapFields (change : String → Field → Field) (s : Schema) : Schema :=
  ⟨s.entities.map fun e => { e with fields := e.fields.map (change e.name) }⟩

variable {s : Schema} {change change' : String → Field → Field}

theorem mapFields_mapFields : (s.mapFields change).mapFields change' =
    s.mapFields fun C f => change' C (change C f) := by
  simp [mapFields, Function.comp_def]

theorem mapFields_congr
    (h : ∀ e ∈ s.entities, ∀ f ∈ e.fields, change e.name f = change' e.name f) :
    s.mapFields change = s.mapFields change' := by
  refine congrArg Schema.mk (List.map_congr_left fun e he => ?_)
  exact congrArg (Entity.mk e.name · e.blocks) (List.map_congr_left (h e he))

theorem mapFields_id : (s.mapFields fun _ f => f) = s := by
  simp [mapFields]

/-- A schema is as it was if and only if every field is. -/
theorem mapFields_eq_self_iff :
    s.mapFields change = s ↔ ∀ e ∈ s.entities, ∀ f ∈ e.fields, change e.name f = f := by
  constructor
  · intro h e he f hf
    have hentities : s.entities.map _ = s.entities.map id :=
      (congrArg Schema.entities h).trans s.entities.map_id.symm
    have hfields : e.fields.map _ = e.fields.map id :=
      (congrArg Entity.fields (List.map_inj_left.mp hentities e he)).trans e.fields.map_id.symm
    exact List.map_inj_left.mp hfields f hf
  · exact fun h => (mapFields_congr h).trans mapFields_id

theorem entity?_mapFields {C : String} {e : Entity} (h : s.entity? C = some e) :
    (s.mapFields change).entity? C = some { e with fields := e.fields.map (change e.name) } := by
  rw [mapFields, entity?, List.find?_map, Option.map_eq_some_iff]
  exact ⟨e, h, rfl⟩

theorem main?_mapFields : (s.mapFields change).main?.map (·.name) = s.main?.map (·.name) := by
  simp [mapFields, main?, Function.comp_def]

theorem core_mapFields (h : ∀ C f, (change C f).core = f.core) :
    (s.mapFields change).core = s.core := by
  rw [core, core, mapFields, List.map_map]
  refine congrArg Schema.mk (List.map_congr_left fun e _ => ?_)
  rw [Function.comp_apply, Entity.core, Entity.cores, List.map_map]
  exact congrArg (Entity.mk e.name · e.blocks) (List.map_congr_left fun f _ => h e.name f)

/-- One field of a class changed. -/
theorem setEntity_modifyField (hs : s.compile = .ok ()) {C n : String} {e : Entity}
    (he : s.entity? C = some e) (update : Field → Field) :
    s.setEntity C (e.modifyField n update) =
      s.mapFields fun D f => if D = C ∧ f.name = n then update f else f := by
  obtain ⟨hclasses, hnames⟩ := nodup_of_compile hs
  have hmem := mem_of_entity? he
  obtain rfl : e.name = C := name_of_entity? he
  have hfields := (List.nodup_append.mp (hnames e hmem)).1
  have hset := setEntity_eq s e.name (e.modifyField n update)
  rw [replaceFirst_of_nodup e.name _ hclasses] at hset
  refine congrArg Schema.mk (hset.trans (List.map_congr_left fun d hd => ?_))
  by_cases hname : d.name = e.name
  · obtain rfl : d = e :=
      Option.some.inj ((find?_of_nodup Entity.name hclasses hd).symm.trans (hname ▸ he))
    simp only [if_true, true_and]
    rw [← replaceFirst_of_nodup n update hfields, ← Entity.modifyField_eq]
    rfl
  · simp [hname]

end Schema

/-! ## Costs -/

namespace Notes

theorem erase_erase (word : String) (notes : Notes) :
    (notes.erase word).erase word = notes.erase word := by
  simp [erase]

/-- The last value under a word counts. -/
theorem set_set (word : String) (v w : Float) (notes : Notes) :
    (notes.set word v).set word w = notes.set word w := by
  rw [set, set, erase_place, erase_erase, ← set]

theorem set_erase (word : String) (v : Float) (notes : Notes) :
    (notes.erase word).set word v = notes.set word v := by
  rw [set, erase_erase, ← set]

/-- There is one note under a word that is set. -/
theorem filter_set (word : String) (v : Float) (notes : Notes) :
    (notes.set word v).filter (·.1 == word) = [(word, v)] := by
  have hplace : ∀ l : Notes, (∀ n ∈ l, (n.1 == word) = false) →
      (place word v l).filter (·.1 == word) = [(word, v)] := by
    intro l hl
    induction l with
    | nil => simp [place]
    | cons n rest ih =>
      have hn := hl n List.mem_cons_self
      have hrest := fun m hm => hl m (List.mem_cons_of_mem _ hm)
      have hnone : rest.filter (·.1 == word) = [] :=
        List.filter_eq_nil_iff.mpr (by simpa using hrest)
      unfold place
      split
      · simp [hn, hnone]
      · simp [hn, ih hrest]
  exact hplace _ fun n hn => by simpa [erase] using (List.mem_filter.mp hn).2

end Notes

namespace Field

/-- A field with a cost, which is also noted. -/
def withCost (cost : Float) (f : Field) : Field :=
  { f with cost, notes := f.notes.set costWord cost }

theorem withCost_withCost (c d : Float) (f : Field) :
    (f.withCost c).withCost d = f.withCost d := by
  simp [withCost, Notes.set_set]

end Field

namespace Options

variable {o : Options} {isMain : Bool} {f : Field}

theorem annotate_eq (o : Options) (s : Schema) : o.annotate s =
    s.mapFields fun C => o.annotateField (s.main?.map (·.name) == some C) := rfl

theorem annotateField_of_some {cost : Float} (h : o.cost? isMain f = some cost) :
    o.annotateField isMain f = f.withCost cost := by
  simp [annotateField, h, Field.withCost, Notes.set_erase]

theorem annotateField_of_none (h : o.cost? isMain f = none) :
    o.annotateField isMain f = { f with cost := 0, notes := f.notes.erase costWord } := by
  simp [annotateField, h]

/-- The cost of selecting a field applies to it. -/
def isFree (o : Options) (isMain : Bool) (f : Field) : Prop :=
  isSelectable f = true ∧ o.isTarget isMain f = false

theorem cost?_eq_none : o.cost? isMain f = none ↔
    (o.regularize = true → f.cost ≤ 0 ∧ ¬ o.isFree isMain f) := by
  cases ho : o.regularize with
  | false => simp [cost?, ho]
  | true => by_cases hpos : f.cost ≤ 0 <;> simp [cost?, ho, hpos, isFree]

theorem cost?_eq_some {cost : Float} : o.cost? isMain f = some cost ↔ o.regularize = true ∧
    (f.cost ≤ 0 ∧ o.isFree isMain f ∧ o.selectionCost = cost ∨
      ¬ f.cost ≤ 0 ∧ f.cost = cost) := by
  cases ho : o.regularize with
  | false => simp [cost?, ho]
  | true => by_cases hpos : f.cost ≤ 0 <;> simp [cost?, ho, hpos, isFree, and_assoc]

/-- A field that has a cost keeps it. -/
theorem annotateField_of_cost (ho : o.regularize = true) (h : ¬ f.cost ≤ 0) :
    o.annotateField isMain f = f.withCost f.cost :=
  annotateField_of_some (cost?_eq_some.mpr ⟨ho, .inr ⟨h, rfl⟩⟩)

/-- Final costs are final. -/
theorem annotateField_annotateField :
    o.annotateField isMain (o.annotateField isMain f) = o.annotateField isMain f := by
  cases hcost : o.cost? isMain f with
  | none =>
    have hagain : o.cost? isMain { f with cost := 0, notes := f.notes.erase costWord } = none :=
      cost?_eq_none.mpr fun ho => ⟨show (0 : Float) ≤ 0 by decide +kernel,
        (cost?_eq_none.mp hcost ho).2⟩
    rw [annotateField_of_none hcost, annotateField_of_none hagain, Notes.erase_erase]
  | some cost =>
    have hagain : o.cost? isMain (f.withCost cost) = some cost := by
      obtain ⟨ho, h⟩ := cost?_eq_some.mp hcost
      refine cost?_eq_some.mpr ⟨ho, ?_⟩
      by_cases hpos : cost ≤ 0
      · rcases h with ⟨-, hfree, rfl⟩ | ⟨hkept, rfl⟩
        · exact .inl ⟨hpos, hfree, rfl⟩
        · exact absurd hpos hkept
      · exact .inr ⟨hpos, rfl⟩
    rw [annotateField_of_some hcost, annotateField_of_some hagain, Field.withCost_withCost]

theorem annotate_annotate (o : Options) (s : Schema) :
    o.annotate (o.annotate s) = o.annotate s := by
  rw [annotate_eq, annotate_eq, Schema.main?_mapFields, Schema.mapFields_mapFields]
  exact Schema.mapFields_congr fun _ _ _ _ => annotateField_annotateField

end Options

end FeatureSynth
