/-
# Created fields behind the others

Where no blocks are built, every field is made at the tail of its class, and only what was
made is moved.  So at any time a class is the one before with the created fields behind it,
and a loop of moves only says in which order these stand: first those that it passes by,
then those it moves, each at its first occurrence in the list of paths.
-/
import FeatureSynth.Proofs.Build.Conserved
import FeatureSynth.Proofs.Schema.Tail

namespace FeatureSynth

/-! ## First occurrences -/

/-- What a list gives, each at its first occurrence, is in the order of what first gives it. -/
theorem pairwise_eraseDups {α β : Type} [BEq β] [LawfulBEq β] {l : List α} {f : α → Option β} :
    (l.filterMap f).eraseDups.Pairwise fun x y =>
      l.findIdx (f · == some x) < l.findIdx (f · == some y) := by
  induction l generalizing f with
  | nil => exact .nil
  | cons a l ih =>
    have hlater : ∀ {x}, (f a == some x) = false →
        (a :: l).findIdx (f · == some x) = l.findIdx (f · == some x) + 1 := by
      intro x hx
      simp [List.findIdx_cons, hx]
    cases ha : f a with
    | none =>
      rw [List.filterMap_cons_none ha]
      refine ih.imp fun {x y} hxy => ?_
      rw [hlater (by rw [ha]; rfl), hlater (by rw [ha]; rfl)]
      exact Nat.succ_lt_succ hxy
    | some z =>
      -- the rest of the list gives what is different from `z`
      let g : α → Option β := fun x => (f x).filter (!· == z)
      have hfilter : (l.filterMap f).filter (!· == z) = l.filterMap g := List.filter_filterMap
      have hne : ∀ x ∈ (l.filterMap g).eraseDups, (x == z) = false := by
        intro x hx
        rw [List.mem_eraseDups, ← hfilter] at hx
        simpa using (List.mem_filter.mp hx).2
      have hidx : ∀ x ∈ (l.filterMap g).eraseDups,
          (a :: l).findIdx (f · == some x) = l.findIdx (g · == some x) + 1 := by
        intro x hx
        have hxz : x ≠ z := by simpa using hne x hx
        rw [hlater (by simpa [ha] using Ne.symm hxz)]
        congr 2
        funext y
        cases hy : f y with
        | none => simp [g, hy]
        | some w =>
          by_cases hw : w = x <;> simp [g, hy, hw, hxz]
      rw [List.filterMap_cons_some ha, List.eraseDups_cons, hfilter]
      refine List.pairwise_cons.mpr ⟨fun y hy => ?_, ?_⟩
      · rw [hidx y hy]
        simp [List.findIdx_cons, ha]
      · refine (List.Pairwise.and_mem.mp (ih (f := g))).imp fun {x y} ⟨hx, hy, hxy⟩ => ?_
        rw [hidx x hx, hidx y hy]
        exact Nat.succ_lt_succ hxy

theorem nodup_eraseDups {β : Type} [BEq β] [LawfulBEq β] (l : List β) : l.eraseDups.Nodup := by
  have h := pairwise_eraseDups (l := l) (f := some)
  rw [List.filterMap_some] at h
  exact h.imp fun {x y} hlt heq => by
    rw [heq] at hlt
    exact Nat.lt_irrefl _ hlt

theorem eraseDups_of_nodup {β : Type} [BEq β] [LawfulBEq β] : ∀ {l : List β}, l.Nodup →
    l.eraseDups = l
  | [], _ => rfl
  | x :: l, h => by
      obtain ⟨hx, hl⟩ := List.nodup_cons.mp h
      have hself : l.filter (!· == x) = l := List.filter_eq_self.mpr fun y hy => by
        simpa using fun heq : y = x => hx (heq ▸ hy)
      rw [List.eraseDups_cons, hself, eraseDups_of_nodup hl]

theorem namesIn_cons {C : String} {p : FieldPath} {paths : List FieldPath} :
    namesIn C (p :: paths) =
      if p.className == C then p.name :: namesIn C paths else namesIn C paths := by
  unfold namesIn
  rw [List.filter_cons]
  split <;> rfl

theorem namesIn_append {C : String} {paths more : List FieldPath} :
    namesIn C (paths ++ more) = namesIn C paths ++ namesIn C more := by
  unfold namesIn
  rw [List.filter_append, List.map_append]

/-! ## The loop of moves -/

namespace Entity

/-- Whether a name is that of a field which is in no block. -/
def hasPlain (e : Entity) (name : String) : Bool := (e.field? name).any (·.block.isNone)

theorem inBlock_eq (e : Entity) (n : String) :
    (e.field? n).all (·.block.isSome) = !e.hasPlain n := by
  rw [hasPlain]
  cases e.field? n with
  | none => rfl
  | some f => simp

theorem hasPlain_moveFieldToTail {e : Entity} (hnodup : (e.fields.map (·.name)).Nodup)
    (n m : String) : (e.moveFieldToTail n).hasPlain m = e.hasPlain m := by
  have hfield : (e.moveFieldToTail n).field? m = e.field? m := by
    have hnodup' := (((e.moveFieldToTail_perm n).map (·.name)).nodup_iff).mpr hnodup
    ext f
    constructor
    · intro hf
      obtain rfl : f.name = m := by simpa using List.find?_some hf
      exact find?_of_nodup Field.name hnodup
        ((e.moveFieldToTail_perm n).mem_iff.mp (List.mem_of_find?_eq_some hf))
    · intro hf
      obtain rfl : f.name = m := by simpa using List.find?_some hf
      exact find?_of_nodup Field.name hnodup'
        ((e.moveFieldToTail_perm n).mem_iff.mpr (List.mem_of_find?_eq_some hf))
  rw [hasPlain, hasPlain, hfield]

end Entity

namespace Build

open BuildState

variable {b b' : BuildState} {u : Unit} {moved paths : List FieldPath} {C : String} {e : Entity}

/-- The names of a class that the loop moves: those of plain fields not moved yet. -/
def movedNames (e : Entity) (C : String) (moved paths : List FieldPath) : List String :=
  ((namesIn C paths).filter fun n => e.hasPlain n && !moved.contains ⟨C, n⟩).eraseDups

section Names

variable {p : FieldPath}

theorem movedNames_of_ne (hC : p.className ≠ C) :
    movedNames e C moved (p :: paths) = movedNames e C moved paths := by
  rw [movedNames, movedNames, namesIn_cons, if_neg (by simpa using hC)]

theorem movedNames_of_skip (hskip : (!e.hasPlain p.name || moved.contains p) = true) :
    movedNames e C moved (p :: paths) = movedNames e C moved paths := by
  by_cases hC : p.className = C
  · subst hC
    have hno : (e.hasPlain p.name && !moved.contains p) = false := by
      rw [← Bool.not_eq_true', Bool.not_and, Bool.not_not]
      exact hskip
    rw [movedNames, movedNames, namesIn_cons, if_pos (beq_self_eq_true _),
      List.filter_cons_of_neg (by simpa using hno)]
  · exact movedNames_of_ne hC

/-- What was moved in another class does not matter. -/
theorem movedNames_of_moved_ne (hC : p.className ≠ C) :
    movedNames e C (p :: moved) paths = movedNames e C moved paths := by
  have hne : ∀ n, ((⟨C, n⟩ : FieldPath) == p) = false := fun n =>
    beq_eq_false_iff_ne.mpr fun heq => hC (by rw [← heq])
  simp only [movedNames, List.contains_cons, hne, Bool.false_or]

/-- A field that is moved comes first, and does not come again. -/
theorem movedNames_of_move (hnodup : (e.fields.map (·.name)).Nodup)
    (hmove : ¬ (!e.hasPlain p.name || moved.contains p) = true) :
    movedNames e p.className moved (p :: paths) =
      p.name :: movedNames (e.moveFieldToTail p.name) p.className (p :: moved) paths := by
  have hyes : (e.hasPlain p.name && !moved.contains p) = true := by
    rw [← Bool.not_eq_false', Bool.not_and, Bool.not_not]
    exact Bool.not_eq_true _ ▸ hmove
  rw [movedNames, namesIn_cons, if_pos (beq_self_eq_true _),
    List.filter_cons_of_pos (by simpa using hyes), List.eraseDups_cons, movedNames,
    List.filter_filter]
  congr 2
  refine List.filter_congr fun n _ => ?_
  have heq : ((⟨p.className, n⟩ : FieldPath) == p) = (n == p.name) := by
    obtain ⟨D, m⟩ := p
    by_cases hn : n = m <;> simp [hn]
  rw [Entity.hasPlain_moveFieldToTail hnodup, List.contains_cons, heq]
  cases e.hasPlain n <;> cases n == p.name <;> simp

end Names

/-- In every class with different names the loop moves each of these once, in their order. -/
theorem moveFields_spec : ∀ {paths moved : List FieldPath} {b : BuildState},
    (moveFields moved paths).Gives b u b' → ∃ s, b' = { b with schema := s } ∧
      ∀ C e, b.schema.entity? C = some e → (e.fields.map (·.name)).Nodup →
        s.entity? C = some (e.moveAll (movedNames e C moved paths))
  | [], moved, b, hrun => by
      rw [moveFields, gives_pure] at hrun
      exact ⟨b.schema, hrun.2, fun C e he _ => he⟩
  | p :: rest, moved, b, hrun => by
      simp only [moveFields, gives_entity_bind, Entity.inBlock_eq] at hrun
      obtain ⟨d, hd, hrun⟩ := hrun
      split at hrun
      case isTrue hskip =>
        obtain ⟨s, hb', hs⟩ := moveFields_spec hrun
        refine ⟨s, hb', fun C e he hnodup => ?_⟩
        rw [hs C e he hnodup]
        by_cases hC : p.className = C
        · subst hC
          obtain rfl : d = e := Option.some.inj (hd.symm.trans he)
          rw [movedNames_of_skip hskip]
        · rw [movedNames_of_ne hC]
      case isFalse hmove =>
        obtain ⟨_, b₁, hedit, hrun⟩ := gives_bind.mp hrun
        obtain ⟨d', _, hd', hok, rfl⟩ := gives_edit.mp hedit
        obtain rfl : d = d' := Option.some.inj (hd.symm.trans hd')
        cases hok
        obtain ⟨s, hb', hs⟩ := moveFields_spec hrun
        refine ⟨s, hb', fun C e he hnodup => ?_⟩
        by_cases hC : p.className = C
        · subst hC
          obtain rfl : d = e := Option.some.inj (hd.symm.trans he)
          have hnodup' : ((d.moveFieldToTail p.name).fields.map (·.name)).Nodup :=
            (((d.moveFieldToTail_perm p.name).map _).nodup_iff).mpr hnodup
          rw [hs _ _ (Schema.entity?_setEntity he rfl) hnodup', movedNames_of_move hnodup hmove,
            Entity.moveAll_cons]
        · have hname : d.name = p.className := Schema.name_of_entity? hd
          have hother : (b.schema.setEntity p.className (d.moveFieldToTail p.name)).entity? C =
              b.schema.entity? C := Schema.entity?_setEntity_ne hname hC
          rw [hs C e (hother.trans he) hnodup, movedNames_of_ne hC, movedNames_of_moved_ne hC]

theorem createdFields_arrangeFields (h : (arrangeFields paths).Gives b u b') :
    b'.createdFields = b.createdFields := by
  simp only [arrangeFields, gives_get_bind] at h
  obtain ⟨s, rfl, -⟩ := moveFields_spec h
  rfl

end Build

/-! ## Along a build -/

namespace BuildState

/-- Every class is the one before with the created fields behind it, none of them in a block. -/
def Prolongs (b₀ b : BuildState) : Prop :=
  ∀ C e, b₀.schema.entity? C = some e → ∃ e' tail, b.schema.entity? C = some e' ∧
    e.ProlongedBy e' tail ∧ (∀ n, n ∈ tail.map (·.name) ↔ ⟨C, n⟩ ∈ b.createdFields) ∧
      ∀ f ∈ tail, f.block = none

/-- Nothing is made, or a derived field goes to the tail of a class under a new name. -/
inductive Derives (b b' : BuildState) (C n : String) : Prop
  | known (schema : b'.schema = b.schema) (fields : b'.createdFields = b.createdFields)
  | made {e : Entity} {t : FieldType} {φ : Formula} (entity : b.schema.entity? C = some e)
      (fresh : n ∉ e.names)
      (schema : b'.schema = b.schema.setEntity C (e.insertField (.derived n t φ)))
      (fields : b'.createdFields = b.noted C n)

variable {b₀ b b₁ b' : BuildState} {C n : String} {e e' : Entity}

theorem Derives.mem_created (h : Derives b b' C n) {p : FieldPath} (hp : p ∈ b'.createdFields) :
    p ∈ b.createdFields ∨ p = ⟨C, n⟩ := by
  cases h with
  | known _ fields => exact .inl (fields ▸ hp)
  | made _ _ _ fields => exact mem_noted.mp (fields ▸ hp)

theorem Derives.of_eq (h : Derives b₁ b' C n) (hschema : b₁.schema = b.schema)
    (hfields : b₁.createdFields = b.createdFields) : Derives b b' C n := by
  have hnoted : b₁.noted C n = b.noted C n := by
    unfold noted isCreated
    rw [hfields]
  cases h with
  | known schema fields => exact .known (schema.trans hschema) (fields.trans hfields)
  | made entity fresh schema fields =>
    rw [hschema] at entity schema
    exact .made entity fresh schema (fields.trans hnoted)

namespace Prolongs

theorem start (hschema : b.schema.compile = .ok ()) (hfields : b.createdFields = []) :
    Prolongs b b := by
  intro C e he
  refine ⟨e, [], he, Entity.prolongedBy_nil ?_, fun n => ?_, by simp⟩
  · exact (Schema.nodup_of_compile hschema).2 e (Schema.mem_of_entity? he)
  · simp [hfields]

theorem of_eq (h : Prolongs b₀ b) (hschema : b'.schema = b.schema)
    (hfields : b'.createdFields = b.createdFields) : Prolongs b₀ b' := by
  unfold Prolongs
  rw [hschema, hfields]
  exact h

theorem of_derives (h : Prolongs b₀ b) (hmade : Derives b b' C n) : Prolongs b₀ b' := by
  cases hmade with
  | known schema fields => exact h.of_eq schema fields
  | @made d t φ entity fresh schema fields =>
    intro D e he
    obtain ⟨e', tail, he', hprolonged, hcreated, hplain⟩ := h D e he
    rw [schema, fields]
    by_cases hD : C = D
    · subst hD
      obtain rfl : d = e' := Option.some.inj (entity.symm.trans he')
      refine ⟨_, _, Schema.entity?_setEntity he' rfl, hprolonged.insertField fresh, fun m => ?_, ?_⟩
      · rw [mem_noted, List.map_append, List.mem_append, hcreated]
        simp [Field.derived, Field.native]
      · intro f hf
        rcases List.mem_append.mp hf with hf | hf
        · exact hplain f hf
        · rw [List.mem_singleton.mp hf]
          rfl
    · have hname : d.name = C := Schema.name_of_entity? entity
      refine ⟨e', tail, ?_, hprolonged, fun m => ?_, hplain⟩
      · rw [Schema.entity?_setEntity_ne
          (show (d.insertField (.derived n t φ)).name = C from hname) hD, he']
      · rw [hcreated, mem_noted]
        refine (or_iff_left fun heq => hD ?_).symm
        exact (FieldPath.mk.inj heq).1.symm

/-- Marks and costs do not matter. -/
theorem of_cores (h : Prolongs b₀ b) (he : b.schema.entity? C = some e) (hname : e'.name = e.name)
    (hcores : e'.cores = e.cores) : Prolongs b₀ { b with schema := b.schema.setEntity C e' } := by
  intro D d₀ hd₀
  obtain ⟨d, tail, hd, hprolonged, hrest⟩ := h D d₀ hd₀
  by_cases hD : C = D
  · subst hD
    obtain rfl : e = d := Option.some.inj (he.symm.trans hd)
    exact ⟨e', tail, Schema.entity?_setEntity he hname, hprolonged.of_cores hcores, hrest⟩
  · exact ⟨d, tail, (Schema.entity?_setEntity_ne (hname.trans (Schema.name_of_entity? he)) hD).trans
      hd, hprolonged, hrest⟩

end Prolongs

end BuildState

namespace Build

open BuildState

variable {o : Options} {b₀ b b' : BuildState} {u : Unit} {C n : String} {e : Entity}
variable {paths : List FieldPath} {rules : List Rule} {new : NewFields}
variable {turns : List (Rule × String)}

/-! ### Fields -/

theorem derives_fieldFor {φ : Formula} {type : Except BuildError FieldType} {make : Naming}
    (h : (fieldFor C φ type make).Gives b n b') : Derives b b' C n := by
  simp only [fieldFor, gives_record_bind] at h
  obtain ⟨c, -, h⟩ := h
  split at h
  · obtain ⟨-, rfl⟩ := gives_reuse.mp h
    exact .known rfl rfl
  · obtain ⟨name, b₁, hname, h⟩ := gives_bind.mp h
    obtain ⟨stem, names, e, -, he, rfl, rfl⟩ := gives_freeName.mp hname
    obtain ⟨t, -, h⟩ := gives_lift_bind.mp h
    simp only [insertDerived, gives_bind, gives_register, gives_edit, gives_pure] at h
    obtain ⟨_, _, ⟨_, _, -, -, rfl⟩, _, _, ⟨e₀, _, he₀, hins, rfl⟩, _, _, hnote, rfl, rfl⟩ := h
    obtain rfl : e = e₀ := Option.some.inj (he.symm.trans he₀)
    cases hins
    rw [createdFields_noteField hnote]
    exact .made he (Entity.freeName_notMem e stem) rfl rfl

theorem derives_directField {r : Rule} (h : (directField r).Gives b n b') :
    Derives b b' r.className n := by
  simp only [directField, gives_record_bind, gives_get_bind, gives_lift_bind] at h
  obtain ⟨c, -, ⟨existing, c'⟩, -, h⟩ := h
  obtain ⟨_, b₁, hset, h⟩ := gives_bind.mp h
  rw [gives_setRecord] at hset
  subst hset
  cases existing with
  | some name =>
    obtain ⟨-, rfl⟩ := gives_reuse.mp h
    exact .known rfl rfl
  | none =>
    simp only [gives_get_bind, gives_lift_bind] at h
    obtain ⟨φ, -, h⟩ := h
    exact (derives_fieldFor h).of_eq rfl rfl

theorem derives_formulaField {r : Rule} {φ : Formula} (h : (formulaField r φ).Gives b n b') :
    Derives b b' r.className n := by
  obtain ⟨name, b₁, hfield, h⟩ := gives_bind.mp h
  obtain ⟨_, b₂, hrecord, hpure⟩ := gives_bind.mp h
  obtain ⟨rfl, rfl⟩ := gives_pure.mp hpure
  rw [recordField, gives_modify] at hrecord
  subst hrecord
  cases derives_fieldFor hfield with
  | known schema fields => exact .known schema fields
  | made entity fresh schema fields => exact .made entity fresh schema fields

/-! ### Moves -/

/-- Created fields that are moved stand at the tail of their class in the order of the moves. -/
theorem moveFields_tail (h : Prolongs b₀ b) (hpaths : ∀ p ∈ paths, p ∈ b.createdFields)
    (hrun : (moveFields [] paths).Gives b u b') (he : b₀.schema.entity? C = some e) :
    b'.createdFields = b.createdFields ∧ ∃ (e' : Entity) (tail : List Field) (before : List String),
      b'.schema.entity? C = some e' ∧ e.ProlongedBy e' tail ∧
      (∀ n, n ∈ before ↔ ⟨C, n⟩ ∈ b.createdFields) ∧
      tail.map (·.name) = before.filter (· ∉ (namesIn C paths).eraseDups) ++
        (namesIn C paths).eraseDups ∧
      ∀ f ∈ tail, f.block = none := by
  obtain ⟨s, rfl, hs⟩ := moveFields_spec hrun
  obtain ⟨d, tail, hd, hprolonged, hcreated, hplain⟩ := h C e he
  have hmem : ∀ n ∈ namesIn C paths, n ∈ tail.map (·.name) := fun n hn =>
    (hcreated n).mpr (hpaths _ (mem_namesIn.mp hn))
  -- what was created is plain, so no path is passed by
  have hnames : movedNames d C [] paths = (namesIn C paths).eraseDups := by
    rw [movedNames, List.filter_eq_self.mpr]
    intro n hn
    obtain ⟨f, hf, rfl⟩ := List.mem_map.mp (hmem n hn)
    obtain ⟨g, hg, rfl⟩ := Entity.mem_cores.mp
      (hprolonged.cores_eq ▸ List.mem_append_right _ hf : f ∈ d.cores)
    have hfield : d.field? g.name = some g := find?_of_nodup Field.name hprolonged.nodup hg
    have hblock : g.block = none := hplain g.core hf
    simp [Entity.hasPlain, hfield, hblock]
  obtain ⟨tail', hprolonged', htail, hperm⟩ := hprolonged.moveAll (nodup_eraseDups (namesIn C paths))
    fun n hn => hmem n (List.mem_eraseDups.mp hn)
  refine ⟨rfl, d.moveAll (namesIn C paths).eraseDups, tail', tail.map (·.name), ?_, hprolonged',
    hcreated, htail, fun f hf => hplain f (hperm.mem_iff.mp hf)⟩
  rw [hs C d hd hprolonged.nodup, hnames]

theorem prolongs_moveFields (h : Prolongs b₀ b) (hpaths : ∀ p ∈ paths, p ∈ b.createdFields)
    (hrun : (moveFields [] paths).Gives b u b') : Prolongs b₀ b' := by
  intro C e he
  obtain ⟨hfields, e', tail, before, he', hprolonged, hcreated, htail, hplain⟩ :=
    moveFields_tail h hpaths hrun he
  refine ⟨e', tail, he', hprolonged, fun n => ?_, hplain⟩
  rw [htail, hfields, List.mem_append, List.mem_filter, ← hcreated]
  by_cases hn : n ∈ (namesIn C paths).eraseDups
  · exact iff_of_true (.inr hn)
      ((hcreated n).mpr (hpaths _ (mem_namesIn.mp (List.mem_eraseDups.mp hn))))
  · simp [hn]

theorem prolongs_arrangeFields (h : Prolongs b₀ b) (hpaths : ∀ p ∈ paths, p ∈ b.createdFields)
    (hrun : (arrangeFields paths).Gives b u b') : Prolongs b₀ b' := by
  simp only [arrangeFields, gives_get_bind] at hrun
  exact prolongs_moveFields h (fun p hp => (List.mem_append.mp hp).elim (hpaths p) mem_ledgerFields)
    hrun

theorem prolongs_mark {name : String} {cost : Float} (h : Prolongs b₀ b)
    (hrun : (markCandidate C name cost).Gives b u b') : Prolongs b₀ b' := by
  obtain ⟨e, he, -, rfl⟩ := gives_markCandidate hrun
  exact h.of_cores he rfl (e.cores_modifyField name fun _ => rfl)

/-! ### Whole builds -/

/-- A step keeps created fields behind the others. -/
def KeepsProlonged (b₀ b b' : BuildState) : Prop := Prolongs b₀ b → Prolongs b₀ b'

theorem chained_keepsProlonged : Chained (KeepsProlonged b₀) where
  refl := fun _ => id
  trans := fun h h' => h' ∘ h

theorem bindParts_keepsProlonged : BindParts (fun m => Respects (KeepsProlonged b₀) m) where
  closed := chained_keepsProlonged.respects
  note := fun f hf => (always_modify fun b h => by
    have hnotes := hf b
    simp only [Notes, Prod.mk.injEq] at hnotes
    exact h.of_eq hnotes.1 hnotes.2.2.2.1).respects
  formula := fun _ _ _ _ _ hrun h => h.of_derives (derives_formulaField hrun)
  direct := fun _ _ _ _ hrun h => h.of_derives (derives_directField hrun)
  bindTo := fun _ _ => (always_modify fun _ h => h.of_eq rfl rfl).respects

theorem prolongs_bindDimensions (h : Prolongs b₀ b) (hrun : (bindDimensions o).Gives b u b') :
    Prolongs b₀ b' := by
  simp only [bindDimensions, gives_get_bind] at hrun
  obtain ⟨_, b₁, hbind, hrun⟩ := gives_bind.mp hrun
  rw [gives_get_bind] at hrun
  have h₁ : Prolongs b₀ b₁ := bindParts_keepsProlonged.closed.forM
    (fun rank _ => closed_bindDimension bindParts_keepsProlonged o rank) hbind h
  exact prolongs_arrangeFields h₁ (fun p hp => List.mem_of_mem_drop hp) hrun

theorem prolongs_ready (h : Prolongs b₀ b) (hrun : (ready o rules).Gives b u b') :
    Prolongs b₀ b' := by
  unfold ready at hrun
  split at hrun
  · rw [(gives_pure.mp hrun).2]
    exact h
  · simp only [prepare, gives_modify_bind] at hrun
    obtain ⟨_, b₁, hbind, hcollect⟩ := gives_bind.mp hrun
    have hcounted : Prolongs b₀ { b with space := b.space.countUses rules } := h.of_eq rfl rfl
    have h₁ := prolongs_bindDimensions hcounted hbind
    have hP : BindParts (fun m => Respects (KeepsProlonged b₀) m) := bindParts_keepsProlonged
    refine hP.closed.forM (fun r _ => ?_) hcollect h₁
    refine hP.closed.bind (hP.note _ fun _ => rfl) fun _ => ?_
    split
    · exact hP.note _ fun _ => rfl
    · exact hP.closed.pure _

theorem Turns.prolongs (hmode : Mode.ofOptions o ≠ .sparse) (h : Turns o b₁ turns new b)
    (hb : Prolongs b₀ b₁) : Prolongs b₀ b := by
  refine h.respects (R := KeepsProlonged b₀) chained_keepsProlonged
    (closed_checkInterrupt bindParts_keepsProlonged.toParts) (fun r => ?_)
    (fun _ _ _ _ _ _ hrun hb => prolongs_mark hb hrun) hb
  unfold candidateField
  split
  · exact bindParts_keepsProlonged.direct r
  · exact closed_sharedField bindParts_keepsProlonged.toParts r
  · exact absurd ‹_› hmode

theorem prolongs_markNew {laid : NewFields} (h : Prolongs b₀ b)
    (hrun : (markNew new).Gives b laid b') : Prolongs b₀ b' :=
  closed_markNew (P := fun m => Respects (KeepsProlonged b₀) m) chained_keepsProlonged.respects
    (fun _ _ _ _ _ _ hrun hb => prolongs_mark hb hrun) new hrun h

end Build

end FeatureSynth
