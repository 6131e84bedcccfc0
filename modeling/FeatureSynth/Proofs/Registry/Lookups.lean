/-
# Lookups between registrations

A record is looked up and added to in any order, and three things in it have to agree: the
index of formulas, the answers remembered, and the names that have answered a rule so far,
which are counted against the derived fields indexed.  `Reached` is the record after such
calls, together with the answers given on the way.

A positive answer is the one the index gives.  A negative one may be given although the
index knows better, but only after every derived field indexed has answered some rule.
What is remembered as negative is never out of date: a registration forgets all of it.
-/
import FeatureSynth.Proofs.Registry.Memo
import FeatureSynth.Template.Default
import Mathlib.Data.List.Nodup
import Mathlib.Data.List.Perm.Subperm

namespace FeatureSynth

namespace ClassRecord

variable {s : Space} {c c' : ClassRecord} {e : Entity} {r : Rule}

/-! ## Derived fields indexed -/

/-- The names of the derived fields a record indexes. -/
def derivedNames (c : ClassRecord) : List String :=
  (c.fields.filter (·.1.2.isNone)).map (·.2)

theorem mem_derivedNames {φ : Formula} {n : String} (h : c.field? φ = some n) :
    n ∈ c.derivedNames :=
  List.mem_map.mpr ⟨((φ, none), n), List.mem_filter.mpr ⟨mem_of_lookup h, rfl⟩, rfl⟩

/-- Where the names of derived fields differ, one name has one formula. -/
theorem formula_eq_of_field? (hnames : c.derivedNames.Nodup) {φ ψ : Formula} {n : String}
    (hφ : c.field? φ = some n) (hψ : c.field? ψ = some n) : φ = ψ := by
  have hentry {χ : Formula} (hχ : c.field? χ = some n) :
      ((χ, none), n) ∈ c.fields.filter (·.1.2.isNone) :=
    List.mem_filter.mpr ⟨mem_of_lookup hχ, rfl⟩
  have heq := List.inj_on_of_nodup_map hnames (hentry hφ) (hentry hψ) rfl
  simpa using heq

/-- The counter counts the derived fields. -/
def Counts (c : ClassRecord) : Prop := c.derivedCount = c.derivedNames.length

/-- One more derived field. -/
theorem WithField.derived {φ : Formula} {n : String} (h : c.WithField (φ, none) n c') :
    c'.derivedNames = c.derivedNames ++ [n] := by
  rw [derivedNames, h.2.1, List.filter_append, List.map_append, ← derivedNames]
  rfl

/-- A member is no derived field. -/
theorem WithField.member {φ : Formula} {key : Nat} {n : String}
    (h : c.WithField (φ, some key) n c') : c'.derivedNames = c.derivedNames := by
  rw [derivedNames, h.2.1, List.filter_append, List.map_append, ← derivedNames]
  exact List.append_nil _

/-- Indexing a field of an entity keeps count. -/
theorem addField_derived (f : Field) (h : c.Counts) :
    (addField e c f).Counts ∧
      (addField e c f).derivedNames.Sublist (c.derivedNames ++ [f.name]) := by
  have hsame : c.Counts ∧ c.derivedNames.Sublist (c.derivedNames ++ [f.name]) :=
    ⟨h, List.sublist_append_left _ _⟩
  unfold addField
  split
  · unfold addDerived
    split
    · rename_i φ _ _
      have hnames : derivedNames { c with
          fields := c.fields ++ [((φ, none), f.name)]
          derivedCount := c.derivedCount + 1 } = c.derivedNames ++ [f.name] :=
        WithField.derived ⟨rfl, rfl, rfl⟩
      refine ⟨?_, by rw [hnames]⟩
      rw [Counts, hnames, List.length_append]
      exact congrArg (· + 1) h
    · exact hsame
  · unfold addMember
    split
    · rename_i b key _ _
      split
      · unfold insertNew
        split
        · exact hsame
        · have hnames : derivedNames { c with
              fields := c.fields ++ [((b.formula, some key), f.name)] } = c.derivedNames :=
            WithField.member ⟨rfl, rfl, rfl⟩
          rw [Counts, hnames]
          exact hsame
      · exact hsame
    · exact hsame

theorem foldl_addField_derived (fields : List Field) (c : ClassRecord) (h : c.Counts) :
    (fields.foldl (addField e) c).Counts ∧
      (fields.foldl (addField e) c).derivedNames.Sublist
        (c.derivedNames ++ fields.map (·.name)) := by
  induction fields generalizing c with
  | nil => exact ⟨h, by simp⟩
  | cons f fs ih =>
    obtain ⟨hcount, hsub⟩ := addField_derived (e := e) f h
    obtain ⟨hcount', hsub'⟩ := ih _ hcount
    refine ⟨hcount', hsub'.trans ?_⟩
    simpa using hsub.append_right (fs.map (·.name))

/-- At the start the derived fields are fields of the entity. -/
theorem collect_derived (catalogue : Catalogue) (schema : Schema) (e : Entity) :
    (collect catalogue schema e).Counts ∧
      (collect catalogue schema e).derivedNames.Sublist (e.fields.map (·.name)) := by
  have hblocks (blocks : List Block) (c : ClassRecord) :
      (blocks.foldl addBlock c).derivedCount = c.derivedCount := by
    induction blocks generalizing c with
    | nil => rfl
    | cons b bs ih =>
      rw [List.foldl_cons, ih]
      unfold addBlock
      split <;> rfl
  obtain ⟨hcount, hsub⟩ :=
    foldl_addField_derived (e := e) e.fields (blank catalogue schema e) rfl
  rw [collect_eq, Counts, derivedNames, hblocks, (foldl_addBlock_keeps _ _).1]
  exact ⟨hcount, by simpa [derivedNames, blank] using hsub⟩

/-! ## Calls -/

/-- The record of an entity after lookups of rules in a space and registrations, in any order: the
lookups with their answers, and the names that no derived field may be registered under. -/
inductive Reached (catalogue : Catalogue) (schema : Schema) (s : Space) (e : Entity) :
    List (Rule × Option String) → List String → ClassRecord → Prop
  | start : Reached catalogue schema s e [] (e.fields.map (·.name)) (collect catalogue schema e)
  | lookup {past taken c r answer c'} (before : Reached catalogue schema s e past taken c)
      (call : c.lookupRule s r = .ok (answer, c')) :
      Reached catalogue schema s e (past ++ [(r, answer)]) taken c'
  | derived {past taken c f c'} (before : Reached catalogue schema s e past taken c)
      (fresh : f.name ∉ taken) (call : c.registerDerived f = .ok c') :
      Reached catalogue schema s e past (f.name :: taken) c'
  | member {past taken c φ f c'} (before : Reached catalogue schema s e past taken c)
      (call : c.registerMember φ f = .ok c') : Reached catalogue schema s e past taken c'
  | block {past taken c b c'} (before : Reached catalogue schema s e past taken c)
      (call : c.registerBlock b = .ok c') : Reached catalogue schema s e past taken c'

/-- What the index, the memo and the names that have answered a rule have to do with one another,
after lookups with their answers. -/
structure Consistent (s : Space) (past : List (Rule × Option String)) (c : ClassRecord) :
    Prop where
  memo : c.MemoSound s
  /-- No field has the formula of a rule that is remembered to have none. -/
  negative : ∀ σ, (σ, none) ∈ c.memo → ∀ r : Rule, r.signature = σ →
    ∀ φ, s.formula r = .ok φ → c.field? φ = none
  names : c.derivedNames.Nodup
  counts : c.Counts
  matched_nodup : c.matched.Nodup
  matched : ∀ n ∈ c.matched, n ∈ c.derivedNames ∧ ∃ r, (r, some n) ∈ past
  past : ∀ r n, (r, some n) ∈ past → c.Answers s r n

namespace Consistent

variable {past : List (Rule × Option String)} {catalogue : Catalogue} {schema : Schema}
variable {answer : Option String}

protected theorem start (hnames : (e.fields.map (·.name)).Nodup) :
    Consistent s [] (collect catalogue schema e) := by
  obtain ⟨hcount, hsub⟩ := collect_derived catalogue schema e
  obtain ⟨hmemo, hmatched⟩ := collect_unasked catalogue schema e
  exact ⟨memoSound_collect catalogue schema e, by simp [hmemo], hnames.sublist hsub, hcount,
    by simp [hmatched], by simp [hmatched], nofun⟩

/-- Once as many names have answered rules as derived fields are indexed, all of these have. -/
theorem answered_of_all (h : Consistent s past c) (hall : c.matched.length = c.derivedCount)
    {φ : Formula} {n : String} (hn : c.field? φ = some n) :
    ∃ r, (r, some n) ∈ past ∧ s.formula r = .ok φ := by
  have hsub : c.matched.Subperm c.derivedNames :=
    List.subperm_of_subset h.matched_nodup fun n hn => (h.matched n hn).1
  have hperm := hsub.perm_of_length_le (Nat.le_of_eq (hall.trans h.counts).symm)
  obtain ⟨-, r, hr⟩ := h.matched n (hperm.mem_iff.mpr (mem_derivedNames hn))
  obtain ⟨ψ, hψ, hm⟩ := h.past r n hr
  exact ⟨r, hr, formula_eq_of_field? h.names hm hn ▸ hψ⟩

/-- Only the derived fields matter, and what was answered. -/
theorem of_same (h : Consistent s past c) (hfield : ∀ φ, c'.field? φ = c.field? φ)
    (hnames : c'.derivedNames = c.derivedNames) (hcount : c'.derivedCount = c.derivedCount)
    (hmatched : c'.matched = c.matched) (hmemo : c'.memo = c.memo) : Consistent s past c' where
  memo := by
    intro σ n hmem r hr
    obtain ⟨φ, hφ, hn⟩ := h.memo σ n (hmemo ▸ hmem) r hr
    exact ⟨φ, hφ, (hfield φ).trans hn⟩
  negative σ hmem r hr φ hφ := (hfield φ).trans (h.negative σ (hmemo ▸ hmem) r hr φ hφ)
  names := hnames ▸ h.names
  counts := by rw [Counts, hcount, hnames, h.counts]
  matched_nodup := hmatched ▸ h.matched_nodup
  matched n hn := hnames ▸ h.matched n (hmatched ▸ hn)
  past r n hr := by
    obtain ⟨φ, hφ, hn⟩ := h.past r n hr
    exact ⟨φ, hφ, (hfield φ).trans hn⟩

/-! ### Lookups -/

/-- One more answer is given. -/
theorem answered (h : Consistent s past c) (hanswer : ∀ n, answer = some n → c.Answers s r n) :
    Consistent s (past ++ [(r, answer)]) c where
  memo := h.memo
  negative := h.negative
  names := h.names
  counts := h.counts
  matched_nodup := h.matched_nodup
  matched n hn := by
    obtain ⟨hnames, x, hx⟩ := h.matched n hn
    exact ⟨hnames, x, List.mem_append_left _ hx⟩
  past x n hx := by
    rcases List.mem_append.mp hx with hold | hnew
    · exact h.past x n hold
    · obtain ⟨rfl, rfl⟩ := (Prod.mk.injEq ..).mp (List.mem_singleton.mp hnew)
      exact hanswer n rfl

/-- A field that was answered with is noted. -/
theorem noteMatch (h : Consistent s past c) {n : String} (hn : n ∈ c.derivedNames)
    (hpast : ∃ r, (r, some n) ∈ past) : Consistent s past (c.noteMatch n) := by
  have hfields := (noteMatch_keeps c n).2.1
  have hnames : (c.noteMatch n).derivedNames = c.derivedNames := by
    rw [derivedNames, hfields, derivedNames]
  have hmatched : (c.noteMatch n).derivedCount = c.derivedCount ∧
      ((c.noteMatch n).matched = c.matched ∨
        n ∉ c.matched ∧ (c.noteMatch n).matched = n :: c.matched) := by
    unfold ClassRecord.noteMatch
    split
    · exact ⟨rfl, .inl rfl⟩
    · rename_i hnew
      have hnew : n ∉ c.matched := by simpa using hnew
      dsimp only
      split <;> exact ⟨rfl, .inr ⟨hnew, rfl⟩⟩
  obtain ⟨hcount, hmatched⟩ := hmatched
  refine ⟨h.memo.mono (fun _ _ hk => by rwa [hfields]) (memo_noteMatch c n), ?_, hnames ▸ h.names,
    by rw [Counts, hcount, hnames, h.counts], ?_, ?_, ?_⟩
  · intro σ hmem r hr φ hφ
    rw [field?, hfields]
    exact h.negative σ (memo_noteMatch c n _ hmem) r hr φ hφ
  · rcases hmatched with heq | ⟨hnew, heq⟩
    · exact heq ▸ h.matched_nodup
    · exact heq ▸ List.nodup_cons.mpr ⟨hnew, h.matched_nodup⟩
  · intro m hm
    rw [hnames]
    rcases hmatched with heq | ⟨-, heq⟩
    · exact h.matched m (heq ▸ hm)
    · rcases List.mem_cons.mp (heq ▸ hm) with rfl | hm
      · exact ⟨hn, hpast⟩
      · exact h.matched m hm
  · intro r m hr
    obtain ⟨φ, hφ, hm⟩ := h.past r m hr
    exact ⟨φ, hφ, by rw [field?, hfields]; exact hm⟩

/-- A right answer is remembered. -/
theorem remember (h : Consistent s past c) (hanswer : ∀ n, answer = some n → c.Answers s r n)
    (hnone : answer = none → ∀ φ, s.formula r = .ok φ → c.field? φ = none) :
    Consistent s past (c.remember r.signature answer) where
  memo := memoSound_remember h.memo hanswer
  negative σ hmem x hx φ hφ := by
    rcases List.mem_cons.mp hmem with heq | hmem
    · obtain ⟨rfl, rfl⟩ := (Prod.mk.injEq ..).mp heq
      exact hnone rfl φ ((s.formula_congr hx).symm.trans hφ)
    · exact h.negative σ hmem x hx φ hφ
  names := h.names
  counts := h.counts
  matched_nodup := h.matched_nodup
  matched := h.matched
  past := h.past

theorem lookup (h : Consistent s past c) (call : c.lookupRule s r = .ok (answer, c')) :
    Consistent s (past ++ [(r, answer)]) c' := by
  have hanswer := (lookupRule_sound h.memo call).2
  have hgiven := h.answered hanswer
  cases lookup_of_lookupRule call with
  | empty | exhausted | remembered => exact hgiven
  | @found φ n hφ hn =>
    have hnoted := hgiven.noteMatch (mem_derivedNames hn)
      ⟨r, List.mem_append_right _ (List.mem_singleton.mpr rfl)⟩
    refine hnoted.remember (fun m hm => ?_) fun hnone => absurd hnone (Option.some_ne_none n)
    obtain rfl := Option.some.inj hm
    exact ⟨φ, hφ, by rw [field?, (noteMatch_keeps c n).2.1]; exact hn⟩
  | @missed φ hφ hn =>
    refine hgiven.remember (fun n hnone => absurd hnone (Option.some_ne_none n).symm) fun _ ψ hψ => ?_
    obtain rfl : φ = ψ := Except.ok.inj (hφ.symm.trans hψ)
    exact hn

/-! ### Registrations -/

theorem derived (h : Consistent s past c) {f : Field} (hfresh : f.name ∉ c.derivedNames)
    (call : c.registerDerived f = .ok c') : Consistent s past c' := by
  obtain ⟨φ, hφ, hnew, hwith⟩ := registerDerived_eq_ok call
  have hcall : c'.derivedCount = c.derivedCount + 1 ∧ c'.matched = c.matched ∧
      ∀ σ, (σ, none) ∉ c'.memo := by
    unfold registerDerived at call
    rw [hφ] at call
    dsimp only at call
    split at call
    · cases call
    · cases call
      exact ⟨rfl, rfl, fun σ hmem => by simpa using (List.mem_filter.mp hmem).2⟩
  obtain ⟨hcount, hmatched, hforgot⟩ := hcall
  have hmono : ∀ key n, c.fields.lookup key = some n → c'.fields.lookup key = some n := by
    intro key n hn
    rw [hwith.2.1, List.lookup_append, hn]
    rfl
  refine ⟨h.memo.mono hmono (memo_registerDerived call), fun σ hmem => absurd hmem (hforgot σ), ?_,
    ?_, hmatched ▸ h.matched_nodup, ?_, ?_⟩
  · rw [hwith.derived]
    exact List.nodup_append.mpr ⟨h.names, List.nodup_singleton _, by
      rintro n hn m hm rfl
      exact hfresh (List.mem_singleton.mp hm ▸ hn)⟩
  · rw [Counts, hcount, hwith.derived, List.length_append, h.counts]
    rfl
  · intro n hn
    obtain ⟨hnames, hpast⟩ := h.matched n (hmatched ▸ hn)
    exact ⟨hwith.derived ▸ List.mem_append_left _ hnames, hpast⟩
  · intro r n hr
    obtain ⟨ψ, hψ, hn⟩ := h.past r n hr
    exact ⟨ψ, hψ, hmono _ _ hn⟩

theorem member (h : Consistent s past c) {φ : Formula} {f : Field}
    (call : c.registerMember φ f = .ok c') : Consistent s past c' := by
  obtain ⟨key, hkey, -, hwith⟩ := registerMember_eq_ok call
  have hcall : c'.derivedCount = c.derivedCount ∧ c'.matched = c.matched ∧ c'.memo = c.memo := by
    unfold registerMember at call
    rw [hkey] at call
    dsimp only at call
    split at call
    · cases call
    · cases call
      exact ⟨rfl, rfl, rfl⟩
  refine h.of_same (fun ψ => ?_) hwith.member hcall.1 hcall.2.1 hcall.2.2
  have hne : ((ψ, none) == (φ, some key)) = false := by simp
  rw [field?, hwith.2.1, List.lookup_append, List.lookup_cons, hne]
  exact Option.or_none

theorem block (h : Consistent s past c) {b : Block} (call : c.registerBlock b = .ok c') :
    Consistent s past c' := by
  unfold registerBlock at call
  split at call
  · cases call
  · cases call
    exact h.of_same (fun _ => rfl) rfl rfl rfl rfl

/-- What calls reach is consistent, and derived fields have names that are taken. -/
theorem of_reached (hnames : (e.fields.map (·.name)).Nodup) {taken : List String}
    (h : Reached catalogue schema s e past taken c) :
    Consistent s past c ∧ c.derivedNames ⊆ taken := by
  induction h with
  | start => exact ⟨.start hnames, (collect_derived catalogue schema e).2.subset⟩
  | lookup _ call ih =>
    refine ⟨ih.1.lookup call, ?_⟩
    rw [derivedNames, (lookupRule_keeps call).2.1]
    exact ih.2
  | derived _ fresh call ih =>
    obtain ⟨_, _, _, hwith⟩ := registerDerived_eq_ok call
    refine ⟨ih.1.derived (fun hn => fresh (ih.2 hn)) call, ?_⟩
    rw [hwith.derived]
    intro n hn
    rcases List.mem_append.mp hn with hn | hn
    · exact List.mem_cons_of_mem _ (ih.2 hn)
    · exact List.mem_singleton.mp hn ▸ List.mem_cons_self
  | member _ call ih =>
    obtain ⟨_, _, _, hwith⟩ := registerMember_eq_ok call
    exact ⟨ih.1.member call, hwith.member ▸ ih.2⟩
  | block _ call ih =>
    refine ⟨ih.1.block call, ?_⟩
    rw [derivedNames, (registerBlock_eq_ok call).2.2.1]
    exact ih.2

end Consistent

/-! ## Lookups agree with the index -/

/-- After any calls, an answer to a rule is the name that the index has for its formula.  The answer
may be none for a formula that the index has a name for only once every derived field indexed has
answered some rule that computes it; and no rule is remembered to have no field when it has one. -/
theorem lookupRule_agrees {catalogue : Catalogue} {schema : Schema}
    {past : List (Rule × Option String)} {taken : List String} {answer : Option String}
    (hnames : (e.fields.map (·.name)).Nodup) (h : Reached catalogue schema s e past taken c)
    (call : c.lookupRule s r = .ok (answer, c')) :
    (∀ n, answer = some n → ∃ φ, s.formula r = .ok φ ∧ c.field? φ = some n) ∧
      (∀ φ n, answer = none → s.formula r = .ok φ → c.field? φ = some n →
        c.matched.length = c.derivedCount ∧
          ∀ ψ m, c.field? ψ = some m → ∃ x, (x, some m) ∈ past ∧ s.formula x = .ok ψ) ∧
      ∀ σ x φ, (σ, none) ∈ c.memo → x.signature = σ → s.formula x = .ok φ → c.field? φ = none := by
  obtain ⟨hc, -⟩ := Consistent.of_reached hnames h
  refine ⟨(lookupRule_sound hc.memo call).2, ?_, fun σ x φ hmem hx => hc.negative σ hmem x hx φ⟩
  rintro φ n rfl hφ hn
  have hall : c.matched.length = c.derivedCount := by
    cases lookup_of_lookupRule call with
    | empty hcount =>
      have hpos := List.length_pos_of_mem (mem_derivedNames hn)
      rw [← hc.counts, hcount] at hpos
      cases hpos
    | remembered hknown =>
      obtain ⟨⟨σ, answer⟩, hfind, hanswer⟩ := Option.map_eq_some_iff.mp hknown
      obtain rfl : answer = none := hanswer
      have heq : σ.compare r.signature = .eq := by simpa using List.find?_some hfind
      have hnone := hc.negative σ (List.mem_of_find?_eq_some hfind) r
        ((Signature.compare_eq_iff _ _).mp heq).symm φ hφ
      cases hnone.symm.trans hn
    | exhausted hall => exact hall
    | missed hψ hnone =>
      obtain rfl := Except.ok.inj (hψ.symm.trans hφ)
      cases hnone.symm.trans hn
  exact ⟨hall, fun ψ m hm => hc.answered_of_all hall hm⟩

end ClassRecord

namespace Birthdays

/-- Members with their date of birth, and the day of the year it falls on. -/
def member : Entity :=
  ⟨"Member", [.native "born" .date, .derived "birthday" .continuous ⟨"YearDay", [.field "born"]⟩],
    []⟩

/-- A part of the date of birth, asked for in a class. -/
def rule (part className : String) : Rule :=
  ⟨.plain part .date [.date] .continuous, className, [.field "born" .date], 0, 0⟩

def weekDay : Field := .derived "weekDay" .continuous ⟨"WeekDay", [.field "born"]⟩

/-- What calls reach from the record of the members. -/
abbrev reached : List (Rule × Option String) → List String → ClassRecord → Prop :=
  ClassRecord.Reached .default ⟨[member]⟩ .empty member

end Birthdays

open Birthdays in
/-- The day of the week is missed, added and found.  With the birthday all derived fields have
answered a rule, and a rule of another class is no longer looked up, although it has a formula that
the index knows. -/
theorem lookupRule_agrees_birthdays :
    ∃ c c', reached [(rule "WeekDay" "Member", none), (rule "WeekDay" "Member", some "weekDay"),
          (rule "YearDay" "Member", some "birthday")] ["weekDay", "born", "birthday"] c ∧
      c.lookupRule .empty (rule "WeekDay" "Lodger") = .ok (none, c') ∧
      c.field? ⟨"WeekDay", [.field "born"]⟩ = some "weekDay" ∧
      c.matched.length = c.derivedCount := by
  have hmissed : reached [(rule "WeekDay" "Member", none)] _ _ := .lookup .start rfl
  have hadded := hmissed.derived (f := weekDay) (by decide) rfl
  have hfound : reached [_, (rule "WeekDay" "Member", some "weekDay")] _ _ := hadded.lookup rfl
  have hall : reached [_, _, (rule "YearDay" "Member", some "birthday")] _ _ := hfound.lookup rfl
  obtain ⟨-, hnone, -⟩ := ClassRecord.lookupRule_agrees (r := rule "WeekDay" "Lodger") (by decide)
    hall (rfl : _ = Except.ok (none, _))
  exact ⟨_, _, hall, rfl, rfl, (hnone ⟨"WeekDay", [.field "born"]⟩ "weekDay" rfl rfl rfl).1⟩

end FeatureSynth
