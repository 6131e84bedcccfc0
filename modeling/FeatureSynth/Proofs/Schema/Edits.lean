/-
# Sequences of edits

The edits of an entity are taken as the steps of a machine.  An edit fits an entity if what
it adds goes by new names and, in a block, under a new key, and if the field it moves by
itself is no member.  From a well-formed entity an edit that fits leads to a well-formed
one, and so do any number of them in a row.

Nothing is lost on the way.  Up to their order the fields and blocks are those there were
and those added, and the fields that an edit does not move stay in the order they were in.
Fields go to the tail, except when a block is sorted: then its members take the places they
held, by increasing keys, and every other field stays where it is.
-/
import Mathlib.Logic.Relation
import FeatureSynth.Proofs.Schema.Faults
import FeatureSynth.Proofs.Schema.Later

namespace FeatureSynth

/-- An edit of an entity. -/
inductive Edit where
  | insertField (f : Field)
  | addBlock (b : Block) (first : Field)
  | insertMember (block : String) (f : Field)
  | moveField (name : String)
  | moveBlock (block : String)
  | sortBlock (block : String)

namespace Edit

def apply (e : Entity) : Edit → Except BuildError Entity
  | insertField f => .ok (e.insertField f)
  | addBlock b first => .ok (e.addBlock b first)
  | insertMember block f => e.insertMember block f
  | moveField name => .ok (e.moveFieldToTail name)
  | moveBlock block => .ok (e.moveBlockToTail block)
  | sortBlock block => .ok (e.sortBlock block)

/-- What an edit relies on: new names, a new key in the block, no member moved by itself. -/
def Fits (e : Entity) : Edit → Prop
  | insertField f => f.name ∉ e.names ∧ f.block = none
  | addBlock b first =>
    first.name ∉ e.names ∧ b.name ∉ e.names ∧ first.name ≠ b.name ∧ first.key.isSome = true
  | insertMember block f =>
    block ∈ e.blocks.map (·.name) ∧ f.name ∉ e.names ∧ f.key.isSome = true ∧
      ∀ g ∈ e.members block, g.key ≠ f.key
  | moveField name => ∀ f ∈ e.fields, f.name = name → f.block = none
  | moveBlock _ | sortBlock _ => True

instance (e : Entity) : (edit : Edit) → Decidable (edit.Fits e)
  | insertField f => inferInstanceAs (Decidable (f.name ∉ e.names ∧ f.block = none))
  | addBlock b first => inferInstanceAs (Decidable (first.name ∉ e.names ∧ b.name ∉ e.names ∧
      first.name ≠ b.name ∧ first.key.isSome = true))
  | insertMember block f => inferInstanceAs (Decidable (block ∈ e.blocks.map (·.name) ∧
      f.name ∉ e.names ∧ f.key.isSome = true ∧ ∀ g ∈ e.members block, g.key ≠ f.key))
  | moveField name => inferInstanceAs (Decidable (∀ f ∈ e.fields, f.name = name → f.block = none))
  | moveBlock _ | sortBlock _ => inferInstanceAs (Decidable True)

/-- The fields an edit adds, as it adds them. -/
def added : Edit → List Field
  | insertField f => [f]
  | addBlock b first => [Entity.asMember first b.name]
  | insertMember block f => [Entity.asMember f block]
  | moveField _ | moveBlock _ | sortBlock _ => []

/-- The blocks an edit adds. -/
def addedBlocks : Edit → List Block
  | addBlock b _ => [b]
  | insertField _ | insertMember .. | moveField _ | moveBlock _ | sortBlock _ => []

/-- Whether an edit moves a field. -/
def moves : Edit → Field → Bool
  | insertField _ | addBlock .. | insertMember .. => fun _ => false
  | moveField name => (·.name == name)
  | moveBlock block | sortBlock block => (·.isIn block)

end Edit

/-- The members of a block have been sorted: their keys increase, they hold the places that members
held, and the other fields are where they were. -/
structure SortedIn (block : String) (e e' : Entity) : Prop where
  increasing : (e'.members block).Pairwise fun f g =>
    ∃ i j, f.key = some i ∧ g.key = some j ∧ i < j
  places : e'.fields.map (Field.isIn block) = e.fields.map (Field.isIn block)
  others : ∀ (i : Nat) (f : Field), e.fields[i]? = some f → f.isIn block = false → e'.fields[i]? = some f

/-- What an edit leaves of an entity: all fields and blocks with those added, the fields it does
not move in their order, and those it moves at the tail, or sorted. -/
structure Edit.Leaves (edit : Edit) (e e' : Entity) : Prop where
  name : e'.name = e.name
  fields : e'.fields.Perm (e.fields ++ edit.added)
  blocks : e'.blocks.Perm (e.blocks ++ edit.addedBlocks)
  order : (e.fields.filter (!edit.moves ·)).Sublist e'.fields
  tail : (∀ B, edit ≠ .sortBlock B) → e.fields.filter edit.moves <:+ e'.fields
  sorted : ∀ B, edit = .sortBlock B → SortedIn B e e'

namespace Entity

variable {classes : List String} {e e' : Entity} {f : Field} {B : String} {edit : Edit}

/-! ## Sorted members -/

theorem filter_refill_self {p : Field → Bool} : ∀ {l ms : List Field}, (∀ m ∈ ms, p m = true) →
    ms.length = (l.filter p).length → (refill p l ms).filter p = ms
  | [], ms, _, hlength => (List.eq_nil_of_length_eq_zero hlength).symm
  | x :: xs, [], _, hlength => List.eq_nil_of_length_eq_zero hlength.symm
  | x :: xs, m :: ms, hms, hlength => by
      unfold refill
      split
      · rename_i hx
        rw [List.filter_cons_of_pos hx] at hlength
        rw [List.filter_cons_of_pos (hms m List.mem_cons_self),
          filter_refill_self (fun m' hm' => hms m' (List.mem_cons_of_mem _ hm'))
            (Nat.succ.inj hlength)]
      · rename_i hx
        rw [List.filter_cons_of_neg hx] at hlength
        rw [List.filter_cons_of_neg hx, filter_refill_self hms hlength]

theorem getElem?_refill {p : Field → Bool} {x : Field} (hx : p x = false) :
    ∀ {l ms : List Field} {i : Nat}, l[i]? = some x → (refill p l ms)[i]? = some x
  | [], _, _, h => nomatch h
  | _ :: _, [], _, h => h
  | y :: ys, m :: ms, 0, h => by
      obtain rfl : y = x := Option.some.inj h
      rw [refill, if_neg (by simp [hx])]
      rfl
  | y :: ys, m :: ms, i + 1, h => by
      have htail : ys[i]? = some x := h
      unfold refill
      split
      · exact getElem?_refill hx htail
      · exact getElem?_refill hx htail

theorem members_sortBlock (e : Entity) (B : String) :
    (e.sortBlock B).members B = (e.members B).mergeSort keyLE := by
  refine filter_refill_self (fun m hm => ?_) (List.mergeSort_perm _ _).length_eq
  exact (List.mem_filter.mp (List.mem_mergeSort.mp hm)).2

theorem pairwise_keyLE (l : List Field) : (l.mergeSort keyLE).Pairwise (keyLE · ·) := by
  refine List.pairwise_mergeSort (fun f g h hfg hgh => ?_) (fun f g => ?_) l
  · unfold keyLE at *
    cases hf : f.key <;> cases hg : g.key <;> cases hh : h.key <;> simp_all
    omega
  · unfold keyLE
    cases hf : f.key <;> cases hg : g.key <;> simp
    omega

/-- Where keys differ, members in order are in strictly increasing order. -/
theorem increasing_of_sorted {l : List Field} (hsorted : l.Pairwise (keyLE · ·))
    (hkeyed : ∀ f ∈ l, f.key.isSome = true) (hkeys : (l.map (·.key)).Nodup) :
    l.Pairwise fun f g => ∃ i j, f.key = some i ∧ g.key = some j ∧ i < j := by
  refine (hsorted.and (List.pairwise_map.mp hkeys)).imp_of_mem fun {f g} hf hg ⟨hle, hne⟩ => ?_
  obtain ⟨i, hi⟩ := Option.isSome_iff_exists.mp (hkeyed f hf)
  obtain ⟨j, hj⟩ := Option.isSome_iff_exists.mp (hkeyed g hg)
  have hle : i ≤ j := by simpa [keyLE, hi, hj] using hle
  refine ⟨i, j, hi, hj, Nat.lt_of_le_of_ne hle fun heq => hne ?_⟩
  rw [hi, hj, heq]

/-- Members with different keys are put in strictly increasing order. -/
theorem sortedIn_sortBlock (hkeyed : ∀ f ∈ e.members B, f.key.isSome = true)
    (hkeys : ((e.members B).map (·.key)).Nodup) : SortedIn B e (e.sortBlock B) where
  increasing := by
    have hperm : ((e.members B).mergeSort keyLE).Perm (e.members B) := List.mergeSort_perm _ _
    rw [members_sortBlock]
    exact increasing_of_sorted (pairwise_keyLE _) (fun f hf => hkeyed f (hperm.mem_iff.mp hf))
      ((hperm.map _).nodup_iff.mpr hkeys)
  places := by
    refine map_refill (fun f g hf hg => hf.trans hg.symm) fun f hf => ?_
    exact (List.mem_filter.mp (List.mem_mergeSort.mp hf)).2
  others := by
    intro i f hi hf
    exact getElem?_refill hf hi

/-! ## Steps -/

/-- A well-formed entity is in order for the relations it has, and for more. -/
theorem WellFormed.inOrder (h : e.WellFormed) (fields : List Field) :
    e.InOrder ((e.fields ++ fields).filterMap (·.type.class?)) := by
  refine inOrder_iff.mpr ⟨h, fun f hf c hc => ?_⟩
  exact List.mem_filterMap.mpr ⟨f, List.mem_append_left _ hf, hc⟩

theorem InOrder.wellFormed (h : e.InOrder classes) : e.WellFormed := (inOrder_iff.mp h).1

/-- The class of a field that is added to an entity. -/
theorem class_mem (fields : List Field) {c : String} (hc : f.type.class? = some c) :
    c ∈ ((fields ++ [f]).filterMap (·.type.class?)) :=
  List.mem_filterMap.mpr ⟨f, by simp, hc⟩

/-- An entity an edit leads to. -/
def Arrives (edit : Edit) (e : Entity) : Prop :=
  ∃ e', edit.apply e = .ok e' ∧ e'.WellFormed ∧ edit.Leaves e e'

/-- An insertion keeps all fields in their order. -/
theorem leaves_of_insertion (hmoves : edit.moves = fun _ => false)
    (hsort : ∀ B, edit ≠ .sortBlock B) (hname : e'.name = e.name)
    (hfields : e'.fields.Perm (e.fields ++ edit.added))
    (hblocks : e'.blocks = e.blocks ++ edit.addedBlocks) (horder : e.fields.Sublist e'.fields) :
    edit.Leaves e e' where
  name := hname
  fields := hfields
  blocks := hblocks ▸ .refl _
  order := List.filter_sublist.trans horder
  tail := fun _ => by simp [hmoves]
  sorted := fun B hB => absurd hB (hsort B)

theorem arrives_insertField (h : e.WellFormed) (hfit : (Edit.insertField f).Fits e) :
    Arrives (.insertField f) e := by
  obtain ⟨hname, hblock⟩ := hfit
  refine ⟨_, rfl, ?_, ?_⟩
  · exact ((h.inOrder [f]).insertField hname hblock fun c hc => class_mem e.fields hc).wellFormed
  · exact leaves_of_insertion rfl nofun rfl (.refl _) (List.append_nil _).symm
      (List.sublist_append_left _ _)

theorem arrives_addBlock {b : Block} (h : e.WellFormed) (hfit : (Edit.addBlock b f).Fits e) :
    Arrives (.addBlock b f) e := by
  obtain ⟨hname, hblock, hne, hkeyed⟩ := hfit
  obtain ⟨key, hkey⟩ := Option.isSome_iff_exists.mp hkeyed
  refine ⟨_, rfl, ?_, ?_⟩
  · exact ((h.inOrder [f]).addBlock hname hblock hne hkey fun c hc => class_mem e.fields hc).wellFormed
  · exact leaves_of_insertion rfl nofun rfl (.refl _) rfl (List.sublist_append_left _ _)

theorem arrives_insertMember (h : e.WellFormed) (hfit : (Edit.insertMember B f).Fits e) :
    Arrives (.insertMember B f) e := by
  obtain ⟨hdeclared, hname, hkeyed, hnew⟩ := hfit
  obtain ⟨key, hkey⟩ := Option.isSome_iff_exists.mp hkeyed
  obtain ⟨b, hb, rfl⟩ := List.mem_map.mp hdeclared
  -- the block has a member to stand behind
  have hany : e.fields.any (·.isIn b.name) = true := by
    obtain ⟨g, hg⟩ := List.exists_mem_of_ne_nil _ (h.blocks b hb).inhabited
    exact List.any_eq_true.mpr ⟨g, List.mem_filter.mp hg⟩
  have hrun : e.insertMember b.name f =
      .ok { e with fields := insertBehind (·.isIn b.name) (asMember f b.name) e.fields } := by
    rw [insertMember, if_pos hany]
  refine ⟨_, hrun, ?_, ?_⟩
  · refine ((h.inOrder [f]).insertMember hrun hname hkey (fun g hg hin => ?_)
      fun c hc => class_mem e.fields hc).wellFormed
    exact hkey ▸ hnew g (List.mem_filter.mpr ⟨hg, beq_iff_eq.mpr hin⟩)
  · obtain ⟨before, x, behind, hl, -, hinserted⟩ :=
      insertBehind_eq (·.isIn b.name) (asMember f b.name) hany
    refine leaves_of_insertion rfl (fun _ heq => by cases heq) rfl (insertMember_eq_ok hrun).2.2.1
      (List.append_nil _).symm ?_
    show e.fields.Sublist (insertBehind _ _ e.fields)
    rw [hinserted, hl]
    exact (List.Sublist.refl before).append ((List.sublist_cons_self _ behind).cons_cons x)

theorem arrives_moveField {n : String} (h : e.WellFormed) (hfit : (Edit.moveField n).Fits e) :
    Arrives (.moveField n) e := by
  refine ⟨_, rfl, ?_, ?_⟩
  · refine ((h.inOrder []).moveFieldToTail fun f hf => ?_).wellFormed
    exact hfit f (List.mem_of_find?_eq_some hf) (by simpa using List.find?_some hf)
  -- one field of the name at most is taken out and put at the tail
  have hmoved : (e.moveFieldToTail n).fields =
      e.fields.filter (!·.name == n) ++ e.fields.filter (·.name == n) := by
    show firstToTail _ e.fields = _
    rcases firstToTail_eq (·.name == n) e.fields with ⟨hnone, heq⟩ | ⟨l₁, f, l₂, hl, hf, heq⟩
    · rw [heq, List.filter_eq_self.mpr fun f hf => by simp [hnone f hf],
        List.filter_eq_nil_iff.mpr fun f hf => by simp [hnone f hf], List.append_nil]
    · have hname : f.name = n := by simpa using List.find?_some hf
      have hnodup := (List.nodup_append.mp h.names).1
      rw [hl, List.map_append, List.map_cons, List.nodup_middle, List.nodup_cons,
        ← List.map_append, hname] at hnodup
      have hother : ∀ g ∈ l₁ ++ l₂, (g.name == n) = false := by
        intro g hg
        exact beq_eq_false_iff_ne.mpr fun heq => hnodup.1 (heq ▸ List.mem_map_of_mem hg)
      have hkept : (l₁ ++ l₂).filter (!·.name == n) = l₁ ++ l₂ :=
        List.filter_eq_self.mpr fun g hg => by simp [hother g hg]
      have hnone : (l₁ ++ l₂).filter (·.name == n) = [] :=
        List.filter_eq_nil_iff.mpr fun g hg => by simp [hother g hg]
      rw [List.filter_append] at hkept hnone
      obtain ⟨hnone₁, hnone₂⟩ := List.append_eq_nil_iff.mp hnone
      rw [heq, hl, List.filter_append, List.filter_cons_of_neg (by simp [hname]), hkept,
        List.filter_append, List.filter_cons_of_pos (by simp [hname]), hnone₁, hnone₂,
        List.nil_append]
  exact {
    name := rfl
    fields := by simpa [Edit.added] using moveFieldToTail_perm e n
    blocks := by simp [Edit.addedBlocks, moveFieldToTail]
    order := hmoved ▸ List.sublist_append_left _ _
    tail := fun _ => hmoved ▸ List.suffix_append _ _
    sorted := nofun }

theorem arrives_moveBlock (h : e.WellFormed) (B : String) : Arrives (.moveBlock B) e := by
  refine ⟨_, rfl, ((h.inOrder []).moveBlockToTail B).wellFormed, ?_⟩
  exact {
    name := rfl
    fields := by simpa [Edit.added] using moveBlockToTail_fields_perm e B
    blocks := by simpa [Edit.addedBlocks] using moveBlockToTail_blocks_perm e B
    order := List.sublist_append_left _ _
    tail := fun _ => List.suffix_append _ _
    sorted := nofun }

theorem arrives_sortBlock (h : e.WellFormed) (B : String) : Arrives (.sortBlock B) e := by
  have hkeys : ((e.members B).map (·.key)).Nodup := by
    by_cases hB : B ∈ e.blocks.map (·.name)
    · obtain ⟨b, hb, rfl⟩ := List.mem_map.mp hB
      exact (h.blocks b hb).keys
    · have hnone : e.members B = [] := List.filter_eq_nil_iff.mpr fun f hf hin =>
        hB (h.declared f hf B (beq_iff_eq.mp hin))
      rw [hnone]
      exact .nil
  have hkeyed : ∀ f ∈ e.members B, f.key.isSome = true := by
    intro f hf
    obtain ⟨hmem, hin⟩ := List.mem_filter.mp hf
    have hblock : f.block = some B := beq_iff_eq.mp hin
    exact h.keyed f hmem (by rw [hblock]; rfl)
  refine ⟨_, rfl, ((h.inOrder []).sortBlock B).wellFormed, ?_⟩
  exact {
    name := rfl
    fields := by simpa [Edit.added] using sortBlock_perm e B
    blocks := by simp [Edit.addedBlocks, sortBlock]
    order := by
      have hkept : (e.sortBlock B).fields.filter (!·.isIn B) = e.fields.filter (!·.isIn B) :=
        filter_refill (fun f hf => by simp [hf]) fun f hf => by
          simpa using (List.mem_filter.mp (List.mem_mergeSort.mp hf)).2
      exact hkept ▸ List.filter_sublist
    tail := fun hne => absurd rfl (hne B)
    sorted := by
      intro B' hB'
      obtain rfl := Edit.sortBlock.inj hB'
      exact sortedIn_sortBlock hkeyed hkeys }

/-- From a well-formed entity an edit that fits leads to a well-formed one. -/
theorem arrives (h : e.WellFormed) (hfit : edit.Fits e) : Arrives edit e := by
  cases edit with
  | insertField f => exact arrives_insertField h hfit
  | addBlock b first => exact arrives_addBlock h hfit
  | insertMember block f => exact arrives_insertMember h hfit
  | moveField name => exact arrives_moveField h hfit
  | moveBlock block => exact arrives_moveBlock h block
  | sortBlock block => exact arrives_sortBlock h block

/-! ## Runs -/

/-- An edit that fits leads from one entity to another. -/
def Step (e e' : Entity) : Prop := ∃ edit : Edit, edit.Fits e ∧ edit.apply e = .ok e'

theorem WellFormed.step (h : e.WellFormed) (hstep : Step e e') : e'.WellFormed := by
  obtain ⟨edit, hfit, hrun⟩ := hstep
  obtain ⟨e'', hrun', hwell, -⟩ := arrives h hfit
  exact Except.ok.inj (hrun'.symm.trans hrun) ▸ hwell

/-- Any number of edits that fit, one after the other, leave a well-formed entity well formed; and
each does what it is for: the next one succeeds, loses nothing, and keeps what it does not move
in order. -/
theorem wellFormed_of_edits {d : Entity} (h : e.WellFormed)
    (hrun : Relation.ReflTransGen Step e d) :
    d.WellFormed ∧ ∀ edit : Edit, edit.Fits d →
      ∃ d', edit.apply d = .ok d' ∧ d'.WellFormed ∧ edit.Leaves d d' := by
  have hwell : d.WellFormed := by
    induction hrun with
    | refl => exact h
    | tail _ hstep ih => exact ih.step hstep
  exact ⟨hwell, fun edit hfit => arrives hwell hfit⟩

end Entity

namespace Sums

def plain : Entity :=
  ⟨"Orders", [.native "amount" .continuous, .native "channel" .symbol], []⟩

def block : Block := ⟨"sums", ⟨"TablePartitionSum", [.field "amount"]⟩⟩

/-- Orders with a block whose members come in falling order of their keys. -/
def grown : Entity :=
  ⟨"Orders",
    [.native "amount" .continuous, .native "channel" .symbol, .member "large" .continuous "sums" 3,
      .member "small" .continuous "sums" 1, .native "date" .date],
    [block]⟩

theorem plain_wellFormed : plain.WellFormed := by
  have horder : plain.InOrder [] := Entity.fault?_eq_none.mp (by decide +kernel)
  exact horder.wellFormed

/-- The block, another field behind it, then a second member. -/
theorem plain_run : Relation.ReflTransGen Entity.Step plain grown := by
  refine .tail (.tail (.tail .refl ⟨.addBlock block (.member "large" .continuous "" 3), ?_, rfl⟩)
    ⟨.insertField (.native "date" .date), ?_, rfl⟩)
    ⟨.insertMember "sums" (.member "small" .continuous "" 1), ?_, rfl⟩
  · decide +kernel
  · decide +kernel
  · decide +kernel

end Sums

open Sums in
/-- The block of the sums can be sorted, and whatever else fits can be done. -/
theorem sums_edited :
    plain.WellFormed ∧ Relation.ReflTransGen Entity.Step plain grown ∧
      grown.WellFormed ∧ ∀ edit : Edit, edit.Fits grown →
        ∃ d', edit.apply grown = .ok d' ∧ d'.WellFormed ∧ edit.Leaves grown d' :=
  ⟨plain_wellFormed, plain_run, Entity.wellFormed_of_edits plain_wellFormed plain_run⟩

end FeatureSynth
