import Mathlib.Data.List.Induction
import Uring.Proofs.Ring.Effect
import Uring.Proofs.Ring.SetUp
import Uring.Proofs.Ring.Written

/-!
# Uring.Proofs.Ring.Tags — a ring's tags are of one kind

The kind of tags is held in two places: in the ring once an entry that is tagged or that cancels has
been committed, and in an open slot before that.  `Session.Tagged` ties both to the record of the
acts that succeeded, and from it follows that completions decode to the tags that were stamped.
-/

namespace Uring

/-! ### When a kind is refused -/

namespace Slot

theorem checkKind_mismatch_iff {expected : Option TagKind} {found κ κ' : TagKind} :
    checkKind expected found = .error (.tagKindMismatch κ κ') ↔
      expected = some κ ∧ κ' = found ∧ κ ≠ found := by
  cases expected with
  | none => simp [checkKind]
  | some kind =>
    by_cases h : kind = found
    · subst h
      simp [checkKind]
      rintro rfl -
      rfl
    · simp [checkKind, h]
      rintro rfl
      exact ⟨fun e => ⟨e.symm, h⟩, fun ⟨e, _⟩ => e.symm⟩

theorem checkKind_ok_iff {expected : Option TagKind} {found : TagKind} :
    checkKind expected found = .ok () ↔ expected = none ∨ expected = some found := by
  cases expected with
  | none => simp [checkKind]
  | some kind => by_cases h : kind = found <;> simp [checkKind, h]

theorem setTag_mismatch_iff (slot : Slot) (t : Tag) (s : Machine) {κ κ' : TagKind} :
    (slot.setTag t s).1 = .error (.tagKindMismatch κ κ') ↔
      s.ring.tagKind = some κ ∧ κ' = t.kind ∧ κ ≠ t.kind := by
  rw [← checkKind_mismatch_iff]
  unfold setTag
  cases checkKind s.ring.tagKind t.kind with
  | error e => rfl
  | ok _ => cases slot.committed <;> simp

/-- A well-formed cancel is refused for the ring's kind, or for the slot's if the ring has none. -/
theorem encode_mismatch_iff (slot : Slot) {op : Operation} {target : Tag} (s : Machine)
    (hvalid : op.validate = .ok ()) (htarget : op.cancelTarget? = some target) {κ κ' : TagKind} :
    (slot.encode op s).1 = .error (.tagKindMismatch κ κ') ↔
      s.ring.tagKind.or slot.pendingKind = some κ ∧ κ' = target.kind ∧ κ ≠ target.kind := by
  rw [← checkKind_mismatch_iff]
  unfold encode checkOperation
  rw [hvalid, htarget]
  dsimp only
  cases checkKind (s.ring.tagKind.or slot.pendingKind) target.kind with
  | error e => rfl
  | ok _ => simp

end Slot

/-! ### What an entry's record says -/

namespace Slot

namespace Act

theorem write_userData (a : Act) (e : Submission.Entry) :
    (a.write e).userData = (a.tag?.map Tag.userData).getD e.userData := by
  cases a with
  | tag t => rfl
  | flags word => rfl
  | encode op => exact op.encode_userData _

theorem eq_tag {a : Act} {t : Tag} (h : a.tag? = some t) : a = .tag t := by
  cases a with
  | tag u => exact congrArg Act.tag (Option.some.inj h)
  | _ => cases h

theorem eq_encode {a : Act} {t : Tag} (h : a.target? = some t) :
    ∃ op, a = .encode op ∧ op.cancelTarget? = some t := by
  cases a with
  | encode op => exact ⟨op, rfl, h⟩
  | _ => cases h

theorem target?_of_encodes_eq_false {a : Act} (h : a.encodes = false) : a.target? = none := by
  cases a with
  | encode op => cases h
  | _ => rfl

end Act

end Slot

namespace Commit

variable {e e' : Submission.Entry} {done : List Slot.Act} {a : Slot.Act}

theorem stamp?_concat (e e' : Submission.Entry) (done : List Slot.Act) (a : Slot.Act) :
    (⟨e', done ++ [a]⟩ : Commit).stamp? = a.tag?.or (⟨e, done⟩ : Commit).stamp? := by
  cases h : a.tag? <;> simp [stamp?, h]

theorem targets_concat (e e' : Submission.Entry) (done : List Slot.Act) (a : Slot.Act) :
    (⟨e', done ++ [a]⟩ : Commit).targets = (⟨e, done⟩ : Commit).targets ++ a.target?.toList := by
  cases h : a.target? <;> simp [targets, h]

theorem built_userData (c : Commit) : c.built.userData = c.word := by
  obtain ⟨e, done⟩ := c
  induction done using List.reverseRecOn with
  | nil => rfl
  | append_singleton done a ih =>
    rw [built_concat e, Slot.Act.write_userData, ih, word, word, stamp?_concat e]
    cases a.tag? <;> rfl

theorem tags_eq_nil_iff {c : Commit} : c.tags = [] ↔ c.stamp? = none ∧ c.targets = [] := by
  simp [tags]

theorem mem_tags_concat {t : Tag} (h : t ∈ (⟨e', done ++ [a]⟩ : Commit).tags) :
    a.tag? = some t ∨ a.target? = some t ∨ t ∈ (⟨e, done⟩ : Commit).tags := by
  unfold tags at h ⊢
  rw [stamp?_concat e, targets_concat e] at h
  rcases List.mem_append.mp h with hstamp | htargets
  · rw [Option.mem_toList, Option.or_eq_some_iff] at hstamp
    rcases hstamp with htag | ⟨-, hstamp⟩
    · exact .inl htag
    · exact .inr (.inr (List.mem_append_left _ (Option.mem_toList.mpr hstamp)))
  · rcases List.mem_append.mp htargets with hold | htarget
    · exact .inr (.inr (List.mem_append_right _ hold))
    · exact .inr (.inl (Option.mem_toList.mp htarget))

/-- An entry that is tagged or cancels stays so, whatever else is done to it. -/
theorem tags_ne_nil_concat (h : (⟨e, done⟩ : Commit).tags ≠ []) :
    (⟨e', done ++ [a]⟩ : Commit).tags ≠ [] := by
  intro hnil
  obtain ⟨hstamp, htargets⟩ := tags_eq_nil_iff.mp hnil
  rw [stamp?_concat e, Option.or_eq_none_iff] at hstamp
  rw [targets_concat e, List.append_eq_nil_iff] at htargets
  exact h (tags_eq_nil_iff.mpr ⟨hstamp.2, htargets.1⟩)

end Commit

/-! ### The open slot -/

namespace Slot

theorem check_target {slot : Slot} {s : Machine} {op : Operation} {t : Tag}
    (hok : slot.check s (.encode op) = .ok ()) (htarget : op.cancelTarget? = some t) :
    s.ring.tagKind.or slot.pendingKind = none ∨
      s.ring.tagKind.or slot.pendingKind = some t.kind := by
  simp only [check, checkOperation, htarget] at hok
  split at hok
  · cases hok
  · exact checkKind_ok_iff.mp hok

/-- What a slot knows of its entry's tags, in a ring of the given kind. -/
structure Tagged (slot : Slot) (c : Commit) (kind : Option TagKind) : Prop where
  /-- A cancel commits its slot. -/
  targets_eq : slot.committed = false → c.targets = []
  pending_eq : slot.pendingKind = if slot.committed then none else c.stamp?.map Tag.kind
  /-- A tag is of the ring's kind, or its kind is still to be adopted. -/
  fits : ∀ t ∈ c.tags, kind = some t.kind ∨ kind = none ∧ slot.committed = false

namespace Tagged

variable {slot : Slot} {s : Machine} {e : Submission.Entry} {done : List Act} {a : Act}

theorem stamp_kind (h : slot.Tagged ⟨e, done⟩ s.ring.tagKind) {κ : TagKind}
    (hpending : slot.pendingKind = some κ) :
    ∃ t, (⟨e, done⟩ : Commit).stamp? = some t ∧ t.kind = κ ∧ slot.committed = false := by
  have heq := h.pending_eq
  rw [hpending] at heq
  cases hc : slot.committed with
  | true => simp [hc] at heq
  | false =>
    rw [hc, if_neg Bool.false_ne_true] at heq
    obtain ⟨t, ht, hkind⟩ := Option.map_eq_some_iff.mp heq.symm
    exact ⟨t, ht, hkind, rfl⟩

/-- What a checked act makes the ring adopt is the kind that it has, if it has one. -/
theorem adopts_eq (h : slot.Tagged ⟨e, done⟩ s.ring.tagKind) (hok : slot.check s a = .ok ())
    {κ : TagKind} (hkind : s.ring.tagKind = some κ) :
    slot.adopts a = none ∨ slot.adopts a = some κ := by
  cases a with
  | tag t =>
    rcases checkKind_ok_iff.mp hok with hnone | hsome
    · rw [hkind] at hnone
      cases hnone
    · cases hc : slot.committed with
      | true => exact .inr (by rw [adopts, hc, if_pos rfl, ← hsome, hkind])
      | false => exact .inl (by rw [adopts, hc, if_neg Bool.false_ne_true])
  | flags word => exact .inl rfl
  | encode op =>
    show slot.pendingKind.or _ = none ∨ slot.pendingKind.or _ = some κ
    cases hpending : slot.pendingKind with
    | some κ' =>
      -- a pending kind was checked against the ring's when it was stamped
      obtain ⟨t, ht, rfl, -⟩ := h.stamp_kind hpending
      rcases h.fits t (by simp [Commit.tags, ht]) with hfits | ⟨hnone, -⟩
      · exact .inr (by rw [Option.some_or, ← hfits, hkind])
      · rw [hkind] at hnone
        cases hnone
    | none =>
      rw [Option.none_or]
      cases htarget : op.cancelTarget? with
      | none => exact .inl rfl
      | some t =>
        rcases check_target hok htarget with hnone | hsome
        · rw [hkind, Option.some_or] at hnone
          cases hnone
        · rw [hkind, Option.some_or] at hsome
          exact .inr hsome.symm

/-- A kind that is fixed stays. -/
theorem kind_kept (h : slot.Tagged ⟨e, done⟩ s.ring.tagKind) (hok : slot.check s a = .ok ())
    {κ : TagKind} (hkind : s.ring.tagKind = some κ) :
    (slot.adopts a).or s.ring.tagKind = some κ := by
  rcases h.adopts_eq hok hkind with hnone | hsome
  · rw [hnone, Option.none_or, hkind]
  · rw [hsome, Option.some_or]

/-- The ring adopts a kind only for an entry that is committed and that is tagged or cancels. -/
theorem of_adopts (h : slot.Tagged ⟨e, done⟩ s.ring.tagKind) (hadopts : slot.adopts a ≠ none) :
    (slot.after a).committed = true ∧
      (⟨a.write e, done ++ [a]⟩ : Commit).tags ≠ [] := by
  cases a with
  | tag t =>
    cases hc : slot.committed with
    | true =>
      refine ⟨by rw [after_committed, hc, Bool.or_true], ?_⟩
      simp [Commit.tags, Commit.stamp?_concat e, Act.tag?]
    | false =>
      rw [adopts, hc, if_neg Bool.false_ne_true] at hadopts
      exact absurd rfl hadopts
  | flags word => exact absurd rfl hadopts
  | encode op =>
    refine ⟨rfl, ?_⟩
    cases hpending : slot.pendingKind with
    | some κ =>
      -- the kind was pending since a tag was stamped, and that tag stays
      obtain ⟨t, ht, -, -⟩ := h.stamp_kind hpending
      exact Commit.tags_ne_nil_concat (e := e) (by simp [Commit.tags, ht])
    | none =>
      cases htarget : op.cancelTarget? with
      | none => simp [adopts, hpending, htarget] at hadopts
      | some t => simp [Commit.tags, Commit.targets_concat e, Act.target?, htarget]

theorem act_fits (h : slot.Tagged ⟨e, done⟩ s.ring.tagKind) (hok : slot.check s a = .ok ()) :
    ∀ t ∈ (⟨a.write e, done ++ [a]⟩ : Commit).tags,
      (slot.adopts a).or s.ring.tagKind = some t.kind ∨
        (slot.adopts a).or s.ring.tagKind = none ∧ (slot.after a).committed = false := by
  intro t ht
  rcases Commit.mem_tags_concat (e := e) ht with htag | htarget | hold
  · -- the tag just stamped
    obtain rfl := Act.eq_tag htag
    rcases checkKind_ok_iff.mp hok with hnone | hsome
    · cases hc : slot.committed with
      | true => exact .inl (by rw [adopts, hc, if_pos rfl, Option.some_or])
      | false =>
        refine .inr ⟨by rw [adopts, hc, if_neg Bool.false_ne_true, Option.none_or, hnone], ?_⟩
        rw [after_committed, hc]
        rfl
    · exact .inl (h.kind_kept hok hsome)
  · -- the tag just referred to
    obtain ⟨op, rfl, hop⟩ := Act.eq_encode htarget
    cases hkind : s.ring.tagKind with
    | some κ =>
      have hkept := h.kind_kept hok hkind
      have hcheck := check_target hok hop
      rw [hkind, Option.some_or] at hcheck
      rcases hcheck with hnone | hsome
      · cases hnone
      · exact .inl (by rw [← hkind, hkept, hsome])
    | none =>
      have hcheck := check_target hok hop
      rw [hkind, Option.none_or] at hcheck
      left
      rcases hcheck with hnone | hsome
      · rw [adopts, hnone, hop]
        rfl
      · rw [adopts, hsome]
        rfl
  · -- a tag from before
    rcases h.fits t hold with hkind | ⟨hnone, hc⟩
    · exact .inl (h.kind_kept hok hkind)
    · cases a with
      | tag u =>
        refine .inr ⟨by rw [adopts, hc, if_neg Bool.false_ne_true, Option.none_or, hnone], ?_⟩
        rw [after_committed, hc]
        rfl
      | flags word => exact .inr ⟨hnone, hc⟩
      | encode op =>
        -- the slot is committed now, and adopts the kind of the tag that was stamped on it
        have hstamp : (⟨e, done⟩ : Commit).stamp? = some t := by
          simpa [Commit.tags, h.targets_eq hc] using hold
        have hpending := h.pending_eq
        rw [hc, if_neg Bool.false_ne_true, hstamp] at hpending
        left
        rw [adopts, hpending]
        rfl

/-- An act that passed its check leaves the slot in order. -/
theorem act (h : slot.Tagged ⟨e, done⟩ s.ring.tagKind) (hok : slot.check s a = .ok ()) :
    (slot.after a).Tagged ⟨a.write e, done ++ [a]⟩ ((slot.adopts a).or s.ring.tagKind) := by
  refine ⟨?_, ?_, h.act_fits hok⟩
  · intro hc
    rw [after_committed, Bool.or_eq_false_iff] at hc
    rw [Commit.targets_concat e, h.targets_eq hc.2, Act.target?_of_encodes_eq_false hc.1]
    rfl
  · rw [Commit.stamp?_concat e]
    cases a with
    | tag t =>
      have heq := h.pending_eq
      cases hc : slot.committed with
      | true => simpa [after, hc] using heq
      | false => simp [after, hc, Act.tag?]
    | flags word => exact h.pending_eq
    | encode op => rfl

end Tagged

end Slot

/-! ### Sessions -/

namespace Session

/-- The ring's kind is that of all tags of committed entries, and there is one to account for it. -/
structure Tagged (s : Session) : Prop where
  alive : ∃ live, s.machine.ring.live = some live
  kinds : ∀ c ∈ s.commits, ∀ t ∈ c.tags, s.machine.ring.tagKind = some t.kind
  slot : ∀ d, s.draft = some d →
    d.slot.Tagged (d.asCommit s.machine.kernel.sq) s.machine.ring.tagKind
  cause : s.machine.ring.tagKind ≠ none → ∃ c ∈ s.committed, c.tags ≠ []

variable {s : Session}

namespace Tagged

theorem committed_kinds (h : s.Tagged) {c : Commit} (hc : c ∈ s.committed) :
    ∀ t ∈ c.tags, s.machine.ring.tagKind = some t.kind := by
  intro t ht
  rcases mem_committed.mp hc with hold | ⟨d, hd, hcommitted, rfl⟩
  · exact h.kinds c hold t ht
  · rcases (h.slot d hd).fits t ht with hkind | ⟨-, hopen⟩
    · exact hkind
    · rw [hcommitted] at hopen
      cases hopen

theorem letGo (h : s.Tagged) : s.letGo.Tagged := by
  refine ⟨h.alive, fun c hc => h.committed_kinds hc, by rintro d ⟨⟩, ?_⟩
  intro hkind
  obtain ⟨c, hc, htags⟩ := h.cause hkind
  exact ⟨c, List.mem_append_left _ hc, htags⟩

theorem claim (h : s.Tagged) :
    s.claim.Tagged ∧ s.claim.machine.ring.tagKind = s.machine.ring.tagKind := by
  have hgo := h.letGo
  rcases s.claim_cases with hclaim | ⟨live, index, hlive, -, hclaim⟩
  · rw [hclaim]
    exact ⟨hgo, rfl⟩
  · rw [hclaim]
    refine ⟨⟨⟨live, hlive⟩, hgo.kinds, ?_, ?_⟩, rfl⟩
    · rintro d ⟨⟩
      exact ⟨fun _ => rfl, rfl, by rintro t ⟨⟩⟩
    · intro hkind
      obtain ⟨c, hc, htags⟩ := h.cause hkind
      exact ⟨c, mem_committed.mpr (.inl hc), htags⟩

theorem act (h : s.Tagged) (a : Slot.Act) :
    (s.act a).Tagged ∧ ∀ κ, s.machine.ring.tagKind = some κ →
      (s.act a).machine.ring.tagKind = some κ := by
  rcases s.act_cases a with hact | ⟨d, hd, hok, hact⟩
  · rw [hact]
    exact ⟨h, fun κ hκ => hκ⟩
  · obtain ⟨live, hlive⟩ := h.alive
    have hslot := h.slot d hd
    have hkind := d.slot.perform_tagKind s.machine a
    have hcell := d.asCommit_extend a s.machine
    have hkept {κ : TagKind} (hκ : s.machine.ring.tagKind = some κ) :
        (d.slot.perform s.machine a).ring.tagKind = some κ := hkind.trans (hslot.kind_kept hok hκ)
    rw [hact]
    refine ⟨⟨⟨_, d.slot.perform_live _ hlive a⟩, ?_, ?_, ?_⟩, fun κ hκ => hkept hκ⟩
    · intro c hc t ht
      exact hkept (h.kinds c hc t ht)
    · rintro d' ⟨⟩
      show (d.slot.after a).Tagged ((d.extend a).asCommit (d.slot.perform s.machine a).kernel.sq)
        (d.slot.perform s.machine a).ring.tagKind
      rw [hcell, hkind]
      exact hslot.act hok
    · intro hne
      -- the open slot itself accounts for the kind, once it is committed and has tags
      have hopen (hcommitted : (d.slot.after a).committed = true)
          (htags : (⟨a.write (s.machine.kernel.sq.sqes.get d.slot.index), d.done ++ [a]⟩ :
            Commit).tags ≠ []) :
          ∃ c ∈ committed { s with
            machine := d.slot.perform s.machine a
            draft := some (d.extend a) }, c.tags ≠ [] := by
        rw [← hcell] at htags
        exact ⟨_, mem_committed.mpr (.inr ⟨d.extend a, rfl, hcommitted, rfl⟩), htags⟩
      by_cases hnone : s.machine.ring.tagKind = none
      · -- the kind is adopted by this act
        have hadopts : d.slot.adopts a ≠ none := by
          intro hnil
          apply hne
          rw [hkind, hnil, hnone]
          rfl
        obtain ⟨hcommitted, htags⟩ := hslot.of_adopts hadopts
        exact hopen hcommitted htags
      · -- the kind was fixed before, maybe by the open slot
        obtain ⟨c, hc, htags⟩ := h.cause hnone
        rcases mem_committed.mp hc with hold | ⟨d', hd', hcommitted, rfl⟩
        · exact ⟨c, mem_committed.mpr (.inl hold), htags⟩
        · obtain rfl := Option.some.inj (hd.symm.trans hd')
          refine hopen ?_ (Commit.tags_ne_nil_concat htags)
          rw [Slot.after_committed, hcommitted, Bool.or_true]

theorem kernel (h : s.Tagged) {k : Kernel} (hturns : Kernel.Turns s.machine.kernel k) :
    Tagged { s with machine.kernel := k } := by
  have hcell (d : Draft) : d.asCommit k.sq = d.asCommit s.machine.kernel.sq :=
    d.asCommit_congr hturns.sqes_eq
  refine ⟨h.alive, h.kinds, ?_, ?_⟩
  · intro d hd
    show d.slot.Tagged (d.asCommit k.sq) _
    rw [hcell]
    exact h.slot d hd
  · intro hkind
    obtain ⟨c, hc, htags⟩ := h.cause hkind
    rcases mem_committed.mp hc with hold | ⟨d, hd, hcommitted, rfl⟩
    · exact ⟨c, mem_committed.mpr (.inl hold), htags⟩
    · exact ⟨_, mem_committed.mpr (.inr ⟨d, hd, hcommitted, (hcell d).symm⟩), htags⟩

theorem call (h : s.Tagged) (a : Step) (ha : a.isCall = true) :
    (s.step (.call a ha)).Tagged ∧
      (s.step (.call a ha)).machine.ring.tagKind = s.machine.ring.tagKind := by
  obtain ⟨live, hlive⟩ := h.alive
  have hpath := Machine.call_path hlive a ha
  have hkind := hpath.tagKind_eq
  have hgo := h.letGo
  refine ⟨⟨hpath.alive h.alive, ?_, by rintro d ⟨⟩, ?_⟩, hkind⟩
  · show ∀ c ∈ s.committed, ∀ t ∈ c.tags, (s.machine.step a).2.ring.tagKind = some t.kind
    rw [hkind]
    exact hgo.kinds
  · show (s.machine.step a).2.ring.tagKind ≠ none → _
    rw [hkind]
    intro hne
    obtain ⟨c, hc, htags⟩ := h.cause hne
    exact ⟨c, mem_committed.mpr (.inl hc), htags⟩

/-- Every move keeps the tags in order, and the kind of tags once it is fixed. -/
theorem step (h : s.Tagged) (a : Move) :
    (s.step a).Tagged ∧ ∀ κ, s.machine.ring.tagKind = some κ →
      (s.step a).machine.ring.tagKind = some κ := by
  cases a with
  | claim => exact ⟨h.claim.1, fun κ hκ => h.claim.2.trans hκ⟩
  | act a => exact h.act a
  | drop => exact ⟨h.letGo, fun κ hκ => hκ⟩
  | call a ha => exact ⟨(h.call a ha).1, fun κ hκ => (h.call a ha).2.trans hκ⟩
  | kernel event => exact ⟨h.kernel (Kernel.event_turns _ event), fun κ hκ => hκ⟩

theorem run (h : s.Tagged) (moves : List Move) :
    (s.run moves).Tagged ∧ ∀ κ, s.machine.ring.tagKind = some κ →
      (s.run moves).machine.ring.tagKind = some κ := by
  refine run_induction (P := fun s' => s'.Tagged ∧ ∀ κ, s.machine.ring.tagKind = some κ →
    s'.machine.ring.tagKind = some κ) ?_ ⟨h, fun κ hκ => hκ⟩ moves
  rintro s' a ⟨h', hkept⟩
  exact ⟨(h'.step a).1, fun κ hκ => (h'.step a).2 κ (hkept κ hκ)⟩

/-- No tag has been used on a ring that has just come up. -/
theorem start {ring : Ring} {k : Kernel} {live : Live} (hlive : ring.live = some live)
    (hkind : ring.tagKind = none) : (Session.start ring k).Tagged :=
  ⟨⟨live, hlive⟩, by rintro c ⟨⟩, by rintro d ⟨⟩, fun hne => absurd hkind hne⟩

end Tagged

end Session

end Uring
