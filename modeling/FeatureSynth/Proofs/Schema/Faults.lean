/-
# Faults of schemas

What `Schema.compile` asks of a schema is said here without its checks.  The members of a
block are consecutive fields when the list of them, taken out of the fields, is a stretch
of the fields as they stand; so `Entity.WellFormed` speaks of the lists themselves, and not
of how `standTogether` and `firstRepeat` go through them.

A fault is a claim about a schema as well as a message.  `Entity.Has` says what each kind
of fault claims, and a schema is refused only for a fault that it has.
-/
import Mathlib.Data.List.Duplicate
import FeatureSynth.Proofs.Schema.InOrder

namespace FeatureSynth

/-! ## Stretches of a list -/

section Stretch

variable {α : Type} {p : α → Bool}

/-- Elements stand together if taken out of the list they are a stretch of it. -/
theorem standTogether_iff_stretch (l : List α) : standTogether p l = true ↔ l.filter p <:+: l := by
  constructor
  · intro h
    rw [standTogether_eq_dropWhile, Bool.not_eq_true', List.any_eq_false] at h
    obtain ⟨before, hbefore⟩ : ∃ before, before = l.takeWhile (!p ·) := ⟨_, rfl⟩
    obtain ⟨rest, hrest⟩ : ∃ rest, rest = l.dropWhile (!p ·) := ⟨_, rfl⟩
    have hl : before ++ rest = l := hbefore ▸ hrest ▸ List.takeWhile_append_dropWhile
    have hnone : ∀ x ∈ before, ¬ p x = true := by
      intro x hx
      have hskipped := List.mem_takeWhile_imp (hbefore ▸ hx)
      simpa using hskipped
    have hsplit : rest.filter p = rest.takeWhile p := by
      conv_lhs => rw [← List.takeWhile_append_dropWhile (p := p) (l := rest)]
      rw [List.filter_append, List.filter_eq_self.mpr fun _ hx => List.mem_takeWhile_imp hx,
        List.filter_eq_nil_iff.mpr (hrest ▸ h), List.append_nil]
    refine ⟨before, rest.dropWhile p, ?_⟩
    rw [← hl, List.filter_append, List.filter_eq_nil_iff.mpr hnone, List.nil_append, hsplit,
      List.append_assoc, List.takeWhile_append_dropWhile]
  · rintro ⟨before, behind, hl⟩
    -- what stands before and behind the stretch cannot be more of its kind
    have hself : (l.filter p).countP p = l.countP p := by simp [List.countP_filter]
    have hcount := congrArg (List.countP p) hl
    rw [List.countP_append, List.countP_append, hself] at hcount
    have hbefore : ∀ x ∈ before, p x = false := fun x hx => by
      simpa using List.countP_eq_zero.mp (show before.countP p = 0 by omega) x hx
    have hbehind : ∀ x ∈ behind, p x = false := fun x hx => by
      simpa using List.countP_eq_zero.mp (show behind.countP p = 0 by omega) x hx
    rw [← hl]
    refine standTogether_append (standTogether_of_last hbefore fun x hx => ?_) hbehind
    exact (List.mem_filter.mp hx).2

/-- What is found stands in the list, and before it or once more in it. -/
theorem of_firstRepeat [DecidableEq α] {x : α} : ∀ {before xs : List α},
    firstRepeat before xs = some x → x ∈ xs ∧ (x ∈ before ∨ List.Duplicate x xs)
  | _, [], h => nomatch h
  | before, y :: ys, h => by
      rw [firstRepeat] at h
      split at h
      · rename_i hy
        obtain rfl : y = x := Option.some.inj h
        exact ⟨List.mem_cons_self, .inl hy⟩
      · obtain ⟨hmem, hx | hdup⟩ := of_firstRepeat h
        · refine ⟨List.mem_cons_of_mem y hmem, ?_⟩
          rcases List.mem_cons.mp hx with rfl | hx
          · exact .inr (.cons_mem hmem)
          · exact .inl hx
        · exact ⟨List.mem_cons_of_mem y hmem, .inr (.cons_duplicate hdup)⟩

theorem map_some_filterMap {β : Type} (g : α → Option β) (l : List α) :
    (l.filterMap g).map some = (l.map g).filter (·.isSome) := by
  induction l with
  | nil => rfl
  | cons x xs ih => cases hx : g x <;> simp [hx, ih]

theorem duplicate_of_firstRepeat [DecidableEq α] {x : α} {l : List α}
    (h : firstRepeat [] l = some x) : List.Duplicate x l :=
  (of_firstRepeat h).2.resolve_left List.not_mem_nil

end Stretch

namespace Entity

/-! ## Well-formed entities -/

/-- A block has a member, its members are consecutive fields, and their keys differ. -/
structure BlockWellFormed (e : Entity) (B : String) : Prop where
  inhabited : e.members B ≠ []
  consecutive : e.members B <:+: e.fields
  keys : ((e.members B).map (·.key)).Nodup

/-- Fields and blocks go by different names, members have keys and are of declared blocks, and the
declared blocks are well formed. -/
structure WellFormed (e : Entity) : Prop where
  names : e.names.Nodup
  keyed : ∀ f ∈ e.fields, f.block.isSome = true → f.key.isSome = true
  declared : ∀ f ∈ e.fields, ∀ B, f.block = some B → B ∈ e.blocks.map (·.name)
  blocks : ∀ b ∈ e.blocks, e.BlockWellFormed b.name

variable {classes : List String} {e : Entity} {f : Field} {B : String} {fault : EntityFault}

/-- Where every member has a key the keys can be listed by themselves. -/
theorem map_key_members (h : ∀ f ∈ e.fields, f.block.isSome = true → f.key.isSome = true) :
    (e.members B).map (·.key) = ((e.members B).filterMap (·.key)).map some := by
  rw [map_some_filterMap, eq_comm, List.filter_eq_self, List.forall_mem_map]
  intro f hf
  obtain ⟨hmem, hin⟩ := List.mem_filter.mp hf
  have hblock : f.block = some B := beq_iff_eq.mp hin
  exact h f hmem (by rw [hblock]; rfl)

theorem blockInOrder_iff (h : ∀ f ∈ e.fields, f.block.isSome = true → f.key.isSome = true) :
    BlockInOrder e.fields B ↔ e.BlockWellFormed B := by
  have hinhabited : e.fields.any (·.isIn B) = true ↔ e.members B ≠ [] := by
    rw [members, ne_eq, List.filter_eq_nil_iff, List.any_eq_true]
    push Not
    rfl
  have hkeys : ((e.fields.filter (·.isIn B)).filterMap (·.key)).Nodup ↔
      ((e.members B).map (·.key)).Nodup := by
    rw [map_key_members h, List.nodup_map_iff (Option.some_injective _)]
    rfl
  constructor
  · rintro ⟨hany, htogether, hnodup⟩
    exact ⟨hinhabited.mp hany, (standTogether_iff_stretch _).mp htogether, hkeys.mp hnodup⟩
  · rintro ⟨hmembers, hstretch, hnodup⟩
    exact ⟨hinhabited.mpr hmembers, (standTogether_iff_stretch _).mpr hstretch, hkeys.mpr hnodup⟩

/-- An entity is in order if it is well formed and its relations lead to the given classes. -/
theorem inOrder_iff : e.InOrder classes ↔
    e.WellFormed ∧ ∀ f ∈ e.fields, ∀ c, f.type.class? = some c → c ∈ classes := by
  constructor
  · intro h
    refine ⟨⟨h.names, h.keyed, h.declared, fun b hb => ?_⟩, h.relations⟩
    exact (blockInOrder_iff h.keyed).mp (h.blocks b hb)
  · rintro ⟨h, hrelations⟩
    refine ⟨h.names, hrelations, h.keyed, fun b hb => ?_, h.declared⟩
    exact (blockInOrder_iff h.keyed).mpr (h.blocks b hb)

/-! ## What faults claim -/

/-- What a fault claims of an entity of a schema with some classes. -/
def Has (classes : List String) (e : Entity) : EntityFault → Prop
  | .duplicateName n => List.Duplicate n e.names
  | .unknownClass n c => ∃ f ∈ e.fields, f.name = n ∧ f.type.class? = some c ∧ c ∉ classes
  | .keylessMember n => ∃ f ∈ e.fields, f.name = n ∧ f.block.isSome = true ∧ f.key = none
  | .emptyBlock B => (∃ b ∈ e.blocks, b.name = B) ∧ e.members B = []
  | .scatteredBlock B => (∃ b ∈ e.blocks, b.name = B) ∧ ¬ e.members B <:+: e.fields
  | .repeatedKey B k =>
    (∃ b ∈ e.blocks, b.name = B) ∧ List.Duplicate (some k) ((e.members B).map (·.key))
  | .undeclaredBlock n B =>
    ∃ f ∈ e.fields, f.name = n ∧ f.block = some B ∧ B ∉ e.blocks.map (·.name)

theorem has_of_fieldFault? (hf : f ∈ e.fields) (h : fieldFault? classes f = some fault) :
    e.Has classes fault := by
  have hkeyless : (if f.block.isSome && f.key.isNone then some (.keylessMember f.name)
      else none) = some fault → e.Has classes fault := by
    intro hmember
    split at hmember
    · rename_i hcond
      rw [Bool.and_eq_true, Option.isNone_iff_eq_none] at hcond
      obtain rfl := Option.some.inj hmember
      exact ⟨f, hf, rfl, hcond.1, hcond.2⟩
    · cases hmember
  unfold fieldFault? at h
  split at h
  · rename_i c hc
    split at h
    · exact hkeyless h
    · rename_i hunknown
      obtain rfl := Option.some.inj h
      exact ⟨f, hf, rfl, hc, hunknown⟩
  · exact hkeyless h

theorem has_of_blockFault? {b : Block} (hb : b ∈ e.blocks) (h : e.blockFault? b = some fault) :
    e.Has classes fault := by
  unfold blockFault? at h
  split at h
  · rename_i hempty
    obtain rfl := Option.some.inj h
    exact ⟨⟨b, hb, rfl⟩, hempty⟩
  · split at h
    · rename_i hscattered
      obtain rfl := Option.some.inj h
      refine ⟨⟨b, hb, rfl⟩, fun hstretch => ?_⟩
      rw [(standTogether_iff_stretch e.fields).mpr hstretch] at hscattered
      cases hscattered
    · obtain ⟨k, hk, rfl⟩ := Option.map_eq_some_iff.mp h
      refine ⟨⟨b, hb, rfl⟩, ?_⟩
      have hrepeated := List.duplicate_iff_sublist.mp (duplicate_of_firstRepeat hk)
      have hkeys := map_some_filterMap (·.key) (e.members b.name)
      rw [List.duplicate_iff_sublist]
      exact (hkeys ▸ hrepeated.map some).trans List.filter_sublist

theorem has_of_memberFault? (hf : f ∈ e.fields) (h : e.memberFault? f = some fault) :
    e.Has classes fault := by
  unfold memberFault? at h
  split at h
  · rename_i B hB
    split at h
    · cases h
    · rename_i hundeclared
      obtain rfl := Option.some.inj h
      exact ⟨f, hf, rfl, hB, fun hdeclared => hundeclared (block?_isSome.mpr hdeclared)⟩
  · cases h

/-- An entity has the fault that is found with it. -/
theorem has_of_fault? (h : e.fault? classes = some fault) : e.Has classes fault := by
  rw [fault?, Option.or_eq_some_iff] at h
  rcases h with hname | ⟨-, h⟩
  · obtain ⟨n, hn, rfl⟩ := Option.map_eq_some_iff.mp hname
    exact duplicate_of_firstRepeat hn
  rw [Option.or_eq_some_iff] at h
  rcases h with hfield | ⟨-, h⟩
  · obtain ⟨f, hf, hfault⟩ := List.exists_of_findSome?_eq_some hfield
    exact has_of_fieldFault? hf hfault
  rw [Option.or_eq_some_iff] at h
  rcases h with hblock | ⟨-, hmember⟩
  · obtain ⟨b, hb, hfault⟩ := List.exists_of_findSome?_eq_some hblock
    exact has_of_blockFault? hb hfault
  · obtain ⟨f, hf, hfault⟩ := List.exists_of_findSome?_eq_some hmember
    exact has_of_memberFault? hf hfault

end Entity

namespace Schema

/-! ## Well-formed schemas -/

/-- Entities go by different names, each is well formed, and relations lead to entities. -/
structure WellFormed (s : Schema) : Prop where
  names : (s.entities.map (·.name)).Nodup
  entities : ∀ e ∈ s.entities, e.WellFormed
  relations : ∀ e ∈ s.entities, ∀ f ∈ e.fields, ∀ c, f.type.class? = some c →
    c ∈ s.entities.map (·.name)

theorem compile_eq_ok_iff_wellFormed (s : Schema) : s.compile = .ok () ↔ s.WellFormed := by
  rw [compile_eq_ok]
  constructor
  · rintro ⟨hnames, horder⟩
    exact ⟨hnames, fun e he => (Entity.inOrder_iff.mp (horder e he)).1,
      fun e he => (Entity.inOrder_iff.mp (horder e he)).2⟩
  · intro h
    exact ⟨h.names, fun e he => Entity.inOrder_iff.mpr ⟨h.entities e he, h.relations e he⟩⟩

/-- Exactly the well-formed schemas are accepted.  Any other one is refused as an invalid schema
for the sake of one of its entities, which the message names: its name is carried by another one
too, or it has the fault that is told. -/
theorem compile_decides (s : Schema) :
    (s.compile = .ok () ↔ s.WellFormed) ∧
      ∀ error, s.compile = .error error → ∃ e ∈ s.entities,
        error = .invalidSchema (.duplicateEntity e.name) ∧
          error.message = "Invalid schema: duplicate entity type " ++ e.name ∧
          List.Duplicate e.name (s.entities.map (·.name)) ∨
        ∃ fault, error = .invalidSchema (.entity e.name fault) ∧
          error.message = "Invalid schema: " ++ (e.name ++ ": " ++ fault.message) ∧
          e.Has (s.entities.map (·.name)) fault := by
  refine ⟨compile_eq_ok_iff_wellFormed s, fun error h => ?_⟩
  rw [compile] at h
  split at h
  · cases h
  rename_i fault hfault
  obtain rfl := Except.error.inj h
  rw [fault?, Option.or_eq_some_iff] at hfault
  rcases hfault with hname | ⟨-, hentity⟩
  · obtain ⟨n, hn, rfl⟩ := Option.map_eq_some_iff.mp hname
    have hrepeated := duplicate_of_firstRepeat hn
    obtain ⟨e, he, rfl⟩ := List.mem_map.mp hrepeated.mem
    exact ⟨e, he, .inl ⟨rfl, rfl, hrepeated⟩⟩
  · obtain ⟨e, he, hfound⟩ := List.exists_of_findSome?_eq_some hentity
    obtain ⟨f, hf, rfl⟩ := Option.map_eq_some_iff.mp hfound
    exact ⟨e, he, .inr ⟨f, rfl, rfl, Entity.has_of_fault? hf⟩⟩

end Schema

namespace Split

/-- Orders with a block whose second member stands behind another field. -/
def schema : Schema :=
  ⟨[ ⟨"Orders",
       [.native "amount" .continuous, .member "small" .continuous "sums" 1,
         .native "channel" .symbol, .member "large" .continuous "sums" 2],
       [⟨"sums", ⟨"TablePartitionSum", [.field "amount"]⟩⟩]⟩ ]⟩

theorem compile_schema :
    schema.compile = .error (.invalidSchema (.entity "Orders" (.scatteredBlock "sums"))) := by
  rfl

end Split

open Split in
/-- The schema of the split block is refused, and its only entity is told. -/
theorem split_refused :
    schema.compile = .error (.invalidSchema (.entity "Orders" (.scatteredBlock "sums"))) ∧
      ¬ schema.WellFormed ∧ ∃ e ∈ schema.entities, ∃ fault,
        fault = .scatteredBlock "sums" ∧ e.Has (schema.entities.map (·.name)) fault := by
  obtain ⟨haccepted, hrefused⟩ := Schema.compile_decides schema
  refine ⟨compile_schema, fun h => ?_, ?_⟩
  · cases compile_schema.symm.trans (haccepted.mpr h)
  · obtain ⟨e, he, ⟨hfault, -⟩ | ⟨fault, hfault, -, hhas⟩⟩ := hrefused _ compile_schema
    · cases hfault
    · injection hfault with hentity
      injection hentity with _ hfault
      exact ⟨e, he, fault, hfault.symm, hhas⟩

end FeatureSynth
