import RpnTape.Proofs.Tape.Unfolding
import RpnTape.Typesetter.Layout

/-!
# Proofs/Typesetter/Traversal — laying out is a traversal from the last operand to the first

`Traverses` says what laying out a list of positions does, as a recursion over the tape: a position
that is laid out is skipped; any other is laid out after its operands, of which the last comes
first; the traversal is broken off at a position off the tape. `Laying.run` does the same with a
stack (`Traverses.run_eq`), and without circles there is always a traversal (`exists_traverses`).

What a traversal keeps is then an induction over it: layouts are only added, and every layout is the
one that its entry has (`Sound`).
-/

namespace RpnTape

open Relation

namespace Layouts

/-! ## Layouts that grow -/

/-- Are all layouts kept? -/
def Extends (layouts layouts' : Layouts) : Prop :=
  ∀ ⦃id : NodeId⦄ ⦃layout : Layout⦄, layouts[id]? = some layout → layouts'[id]? = some layout

variable {layouts layouts' : Layouts} {id : NodeId} {layout : Layout} {entry : Entry}

theorem exists_getElem?_of_mem (h : id ∈ layouts) : ∃ layout, layouts[id]? = some layout :=
  ⟨_, Std.HashMap.getElem?_eq_some_getElem h⟩

theorem mem_of_getElem? (h : layouts[id]? = some layout) : id ∈ layouts :=
  Std.HashMap.mem_iff_isSome_getElem?.2 (h ▸ rfl)

theorem Extends.refl (layouts : Layouts) : layouts.Extends layouts := fun _ _ h => h

theorem Extends.trans {layouts'' : Layouts} (h : layouts.Extends layouts')
    (h' : layouts'.Extends layouts'') : layouts.Extends layouts'' := fun _ _ hid => h' (h hid)

theorem Extends.mem (h : layouts.Extends layouts') (hid : id ∈ layouts) : id ∈ layouts' := by
  obtain ⟨layout, hlayout⟩ := exists_getElem?_of_mem hid
  exact mem_of_getElem? (h hlayout)

theorem extends_insert (h : id ∉ layouts) (layout : Layout) :
    layouts.Extends (layouts.insert id layout) := by
  intro other layout' hother
  have hne : id ≠ other := fun heq => h (heq ▸ mem_of_getElem? hother)
  rw [Std.HashMap.getElem?_insert, if_neg (by simpa using hne), hother]

theorem Extends.power? {power : BindingPower} (h : layouts.Extends layouts')
    (hpower : layouts.power? id = some power) : layouts'.power? id = some power := by
  obtain ⟨layout, hlayout, rfl⟩ := Option.map_eq_some_iff.1 hpower
  rw [Layouts.power?, h hlayout, Option.map_some]

theorem exists_power?_of_mem (h : id ∈ layouts) : ∃ power, layouts.power? id = some power := by
  obtain ⟨layout, hlayout⟩ := exists_getElem?_of_mem h
  exact ⟨layout.power, by rw [power?, hlayout, Option.map_some]⟩

/-! ## The layout of an entry, given those of its operands -/

/-- **An entry whose operands are laid out has a layout.** -/
theorem exists_layout? (h : ∀ b ∈ entry.node.operands, b ∈ layouts) :
    ∃ layout, layouts.layout? entry = some layout := by
  obtain ⟨node, value⟩ := entry
  cases node with
  | literal => exact ⟨_, rfl⟩
  | read name => exact ⟨_, rfl⟩
  | bind name source => exact ⟨_, rfl⟩
  | apply operator args =>
    have hpower : ∀ b ∈ args, ∃ power, layouts.power? b = some power :=
      fun b hb => exists_power?_of_mem (h b hb)
    simp only [layout?, application?]
    split
    -- only an infix operator and a power ask for the powers of their operands
    case h_1 a b _ | h_2 a b _ =>
      obtain ⟨left, hleft⟩ := hpower a (by simp)
      obtain ⟨right, hright⟩ := hpower b (by simp)
      exact ⟨_, by rw [hleft, hright]; rfl⟩
    case h_5 a b _ =>
      obtain ⟨base, hbase⟩ := hpower a (by simp)
      exact ⟨_, by rw [hbase]; rfl⟩
    all_goals exact ⟨_, rfl⟩

/-- **Layouts that are added later do not change the layout of an entry.** -/
theorem Extends.layout? (h : layouts.Extends layouts')
    (hlayout : layouts.layout? entry = some layout) : layouts'.layout? entry = some layout := by
  obtain ⟨node, value⟩ := entry
  cases node with
  | literal => exact hlayout
  | read name => exact hlayout
  | bind name source => exact hlayout
  | apply operator args =>
    simp only [Layouts.layout?, application?] at hlayout ⊢
    split at hlayout
    case h_1 a b _ | h_2 a b _ =>
      obtain ⟨left, hleft, hlayout⟩ := Option.bind_eq_some_iff.1 hlayout
      obtain ⟨right, hright, hlayout⟩ := Option.bind_eq_some_iff.1 hlayout
      rw [h.power? hleft, h.power? hright]
      exact hlayout
    case h_5 a b _ =>
      obtain ⟨base, hbase, hlayout⟩ := Option.bind_eq_some_iff.1 hlayout
      rw [h.power? hbase]
      exact hlayout
    all_goals exact hlayout

/-! ## Sound layouts -/

/-- Every layout is of an entry on the tape, with the operands laid out too, and it is the
layout that the entry has. -/
def Sound (tape : Tape) (layouts : Layouts) : Prop :=
  ∀ ⦃id : NodeId⦄ ⦃layout : Layout⦄, layouts[id]? = some layout →
    ∃ entry, tape.get? id = some entry ∧ (∀ b ∈ entry.node.operands, b ∈ layouts) ∧
      layouts.layout? entry = some layout

variable {tape : Tape}

theorem sound_empty (tape : Tape) : Sound tape ∅ := fun _ _ h => by simp at h

/-- **Laying out one more entry keeps layouts sound.** -/
theorem Sound.insert (h : layouts.Sound tape) (hid : id ∉ layouts)
    (hentry : tape.get? id = some entry) (hoperands : ∀ b ∈ entry.node.operands, b ∈ layouts)
    (hlayout : layouts.layout? entry = some layout) : Sound tape (layouts.insert id layout) := by
  have hext : layouts.Extends (layouts.insert id layout) := extends_insert hid layout
  intro other layout' hother
  rw [Std.HashMap.getElem?_insert] at hother
  split at hother
  · rename_i heq
    obtain rfl : id = other := by simpa using heq
    obtain rfl : layout = layout' := Option.some.inj hother
    exact ⟨entry, hentry, fun b hb => hext.mem (hoperands b hb), hext.layout? hlayout⟩
  · obtain ⟨entry', hentry', hoperands', hlayout'⟩ := h hother
    exact ⟨entry', hentry', fun b hb => hext.mem (hoperands' b hb), hext.layout? hlayout'⟩

/-- Sound layouts are closed under operands. -/
theorem Sound.mem_of_reaches (h : layouts.Sound tape) {b : NodeId} (hid : id ∈ layouts)
    (hreaches : tape.Reaches id b) : b ∈ layouts := by
  induction hreaches with
  | refl => exact hid
  | tail _ hholds ih =>
    obtain ⟨layout, hlayout⟩ := exists_getElem?_of_mem ih
    obtain ⟨entry, hentry, hoperands, _⟩ := h hlayout
    obtain ⟨entry', hentry', hb⟩ := hholds
    obtain rfl := Option.some.inj (hentry.symm.trans hentry')
    exact hoperands _ hb

/-- **What is laid out reaches no position off the tape.** -/
theorem Sound.complete (h : layouts.Sound tape) (hid : id ∈ layouts) : tape.Complete id := by
  intro b hb
  obtain ⟨layout, hlayout⟩ := exists_getElem?_of_mem (h.mem_of_reaches hid hb)
  obtain ⟨entry, hentry, _⟩ := h hlayout
  rw [hentry]
  exact Option.some_ne_none _

end Layouts

/-! ## Traversals -/

/-- Laying out the positions one after another leads from the first layouts to the second; the flag
says whether all could be laid out. -/
inductive Traverses (tape : Tape) : List NodeId → Layouts → Bool → Layouts → Prop
  | done {layouts : Layouts} : Traverses tape [] layouts true layouts
  | skip {id : NodeId} {ids : List NodeId} {layouts layouts' : Layouts} {complete : Bool}
      (hmem : id ∈ layouts) (hrest : Traverses tape ids layouts complete layouts') :
      Traverses tape (id :: ids) layouts complete layouts'
  | missing {id : NodeId} {ids : List NodeId} {layouts : Layouts} (hmem : id ∉ layouts)
      (hentry : tape.get? id = none) : Traverses tape (id :: ids) layouts false layouts
  | brokenOff {id : NodeId} {ids : List NodeId} {entry : Entry} {layouts layouts' : Layouts}
      (hmem : id ∉ layouts) (hentry : tape.get? id = some entry)
      (hoperands : Traverses tape entry.node.operands.reverse layouts false layouts') :
      Traverses tape (id :: ids) layouts false layouts'
  | layOut {id : NodeId} {ids : List NodeId} {entry : Entry} {layout : Layout}
      {layouts below layouts' : Layouts} {complete : Bool}
      (hmem : id ∉ layouts) (hentry : tape.get? id = some entry)
      (hoperands : Traverses tape entry.node.operands.reverse layouts true below)
      (hnew : id ∉ below) (hlayout : below.layout? entry = some layout)
      (hrest : Traverses tape ids (below.insert id layout) complete layouts') :
      Traverses tape (id :: ids) layouts complete layouts'

namespace Traverses

open Layouts

variable {tape : Tape} {id : NodeId} {ids ids' : List NodeId} {complete : Bool}
  {layouts layouts' layouts'' : Layouts}

/-- **A traversal only adds layouts.** -/
theorem kept (h : Traverses tape ids layouts complete layouts') : layouts.Extends layouts' := by
  induction h with
  | done => exact Extends.refl _
  | skip _ _ ih => exact ih
  | missing _ _ => exact Extends.refl _
  | brokenOff _ _ _ ih => exact ih
  | layOut _ _ _ hnew _ _ ihoperands ihrest =>
    exact ihoperands.trans ((extends_insert hnew _).trans ihrest)

/-- A traversal that is not broken off leaves its positions laid out. -/
theorem mem (h : Traverses tape ids layouts complete layouts') (hcomplete : complete = true) :
    ∀ id ∈ ids, id ∈ layouts' := by
  induction h with
  | done => exact fun id hid => absurd hid List.not_mem_nil
  | skip hmem hrest ih => exact List.forall_mem_cons.2 ⟨hrest.kept.mem hmem, ih hcomplete⟩
  | missing _ _ => exact absurd hcomplete Bool.false_ne_true
  | brokenOff _ _ _ _ => exact absurd hcomplete Bool.false_ne_true
  | layOut _ _ _ _ _ hrest _ ih =>
    exact List.forall_mem_cons.2 ⟨hrest.kept.mem Std.HashMap.mem_insert_self, ih hcomplete⟩

/-- **A traversal keeps layouts sound.** -/
theorem sound (h : Traverses tape ids layouts complete layouts') (hsound : layouts.Sound tape) :
    layouts'.Sound tape := by
  induction h with
  | done => exact hsound
  | skip _ _ ih => exact ih hsound
  | missing _ _ => exact hsound
  | brokenOff _ _ _ ih => exact ih hsound
  | layOut _ hentry hoperands hnew hlayout _ ihoperands ihrest =>
    have hbelow : ∀ b ∈ _, b ∈ _ := fun b hb => hoperands.mem rfl b (List.mem_reverse.2 hb)
    exact ihrest ((ihoperands hsound).insert hnew hentry hbelow hlayout)

/-- A traversal lays out only what its positions reach. -/
theorem mem_or_reaches (h : Traverses tape ids layouts complete layouts') {b : NodeId}
    (hb : b ∈ layouts') : b ∈ layouts ∨ ∃ a ∈ ids, tape.Reaches a b := by
  induction h with
  | done => exact .inl hb
  | skip _ _ ih =>
    exact (ih hb).imp_right fun ⟨a, ha, hab⟩ => ⟨a, List.mem_cons_of_mem _ ha, hab⟩
  | missing _ _ => exact .inl hb
  | brokenOff _ hentry _ ih =>
    refine (ih hb).imp_right fun ⟨a, ha, hab⟩ => ⟨_, List.mem_cons_self, ?_⟩
    exact hab.head ⟨_, hentry, List.mem_reverse.1 ha⟩
  | @layOut id ids _ _ _ _ _ _ _ hentry _ _ _ _ ihoperands ihrest =>
    rcases ihrest hb with hb | ⟨a, ha, hab⟩
    · rcases Std.HashMap.mem_insert.1 hb with heq | hb
      · obtain rfl : id = b := by simpa using heq
        exact .inr ⟨id, List.mem_cons_self, ReflTransGen.refl⟩
      · refine (ihoperands hb).imp_right fun ⟨a, ha, hab⟩ => ⟨id, List.mem_cons_self, ?_⟩
        exact hab.head ⟨_, hentry, List.mem_reverse.1 ha⟩
    · exact .inr ⟨a, List.mem_cons_of_mem _ ha, hab⟩

/-- **A traversal is broken off only when a position is reached that is off the tape.** -/
theorem exists_not_complete (h : Traverses tape ids layouts complete layouts')
    (hcomplete : complete = false) : ∃ id ∈ ids, ¬ tape.Complete id := by
  induction h with
  | done => exact absurd hcomplete.symm Bool.false_ne_true
  | skip _ _ ih =>
    obtain ⟨a, ha, hnot⟩ := ih hcomplete
    exact ⟨a, List.mem_cons_of_mem _ ha, hnot⟩
  | missing _ hentry => exact ⟨_, List.mem_cons_self, fun h => h _ ReflTransGen.refl hentry⟩
  | brokenOff _ hentry _ ih =>
    obtain ⟨a, ha, hnot⟩ := ih hcomplete
    refine ⟨_, List.mem_cons_self, fun h => hnot (h.of_holds ?_)⟩
    exact ⟨_, hentry, List.mem_reverse.1 ha⟩
  | layOut _ _ _ _ _ _ _ ih =>
    obtain ⟨a, ha, hnot⟩ := ih hcomplete
    exact ⟨a, List.mem_cons_of_mem _ ha, hnot⟩

/-! ## Without circles there is a traversal -/

theorem append (h : Traverses tape ids layouts true layouts')
    (h' : Traverses tape ids' layouts' complete layouts'') :
    Traverses tape (ids ++ ids') layouts complete layouts'' := by
  generalize hflag : true = flag at h
  induction h with
  | done => exact h'
  | skip hmem _ ih => exact .skip hmem (ih h' hflag)
  | missing _ _ => cases hflag
  | brokenOff _ _ _ _ => cases hflag
  | layOut hmem hentry hoperands hnew hlayout _ _ ih =>
    exact .layOut hmem hentry hoperands hnew hlayout (ih h' hflag)

theorem append_of_brokenOff (h : Traverses tape ids layouts false layouts') (ids' : List NodeId) :
    Traverses tape (ids ++ ids') layouts false layouts' := by
  generalize hflag : false = flag at h ⊢
  induction h with
  | done => cases hflag
  | skip hmem _ ih => exact .skip hmem (ih hflag)
  | missing hmem hentry => exact .missing hmem hentry
  | brokenOff hmem hentry hoperands _ => exact .brokenOff hmem hentry hoperands
  | layOut hmem hentry hoperands hnew hlayout _ _ ih =>
    exact .layOut hmem hentry hoperands hnew hlayout (ih hflag)

end Traverses

/-- Positions that can each be traversed can be traversed one after another. -/
theorem exists_traverses_of_forall {tape : Tape} : ∀ {ids : List NodeId},
    (∀ id ∈ ids, ∀ layouts, ∃ complete layouts', Traverses tape [id] layouts complete layouts') →
      ∀ layouts, ∃ complete layouts', Traverses tape ids layouts complete layouts'
  | [], _, layouts => ⟨true, layouts, .done⟩
  | id :: ids, h, layouts => by
    obtain ⟨complete, layouts', hid⟩ := h id List.mem_cons_self layouts
    cases complete with
    | false => exact ⟨false, layouts', hid.append_of_brokenOff ids⟩
    | true =>
      obtain ⟨complete, layouts'', hids⟩ :=
        exists_traverses_of_forall (fun a ha => h a (List.mem_cons_of_mem _ ha)) layouts'
      exact ⟨complete, layouts'', hid.append hids⟩

/-- **From a position without circles there is a traversal.** -/
theorem exists_traverses {tape : Tape} {id : NodeId} (h : tape.Acyclic id) :
    ∀ layouts, ∃ complete layouts', Traverses tape [id] layouts complete layouts' := by
  induction h.acc with
  | intro id _ ih =>
    intro layouts
    by_cases hmem : id ∈ layouts
    · exact ⟨true, layouts, .skip hmem .done⟩
    cases hentry : tape.get? id with
    | none => exact ⟨false, layouts, .missing hmem hentry⟩
    | some entry =>
      have hholds : ∀ b ∈ entry.node.operands.reverse, tape.Holds id b :=
        fun b hb => ⟨entry, hentry, List.mem_reverse.1 hb⟩
      obtain ⟨complete, below, hoperands⟩ := exists_traverses_of_forall
        (fun b hb => ih b (hholds b hb) (h.of_holds (hholds b hb))) layouts
      cases complete with
      | false => exact ⟨false, below, .brokenOff hmem hentry hoperands⟩
      | true =>
        -- if the operands led back to the entry itself, there would be a circle
        have hnew : id ∉ below := by
          intro hid
          rcases hoperands.mem_or_reaches hid with hid | ⟨b, hb, hreaches⟩
          · exact hmem hid
          · exact h id ReflTransGen.refl (TransGen.head' (hholds b hb) hreaches)
        obtain ⟨layout, hlayout⟩ := Layouts.exists_layout? fun b hb =>
          hoperands.mem rfl b (List.mem_reverse.2 hb)
        exact ⟨true, _, .layOut hmem hentry hoperands hnew hlayout .done⟩

/-! ## The stack follows the traversal -/

namespace Laying

variable {tape : Tape} {id : NodeId} {rest : List NodeId} {layouts : Layouts} {entry : Entry}

theorem run_of_mem (h : id ∈ layouts) : run tape ⟨id :: rest, layouts⟩ = run tape ⟨rest, layouts⟩ :=
  Loop.run_of_inl (by simp [step, h])

theorem run_of_missing (h : id ∉ layouts) (hentry : tape.get? id = none) :
    run tape ⟨id :: rest, layouts⟩ = some (false, layouts) :=
  Loop.run_of_inr (by simp [step, h, hentry])

/-- An entry waits until the operands it lacks are laid out. -/
theorem run_of_lacking (h : id ∉ layouts) (hentry : tape.get? id = some entry) :
    run tape ⟨id :: rest, layouts⟩ =
      run tape ⟨(entry.node.operands.reverse.filter fun b => !layouts.contains b) ++ id :: rest,
        layouts⟩ := by
  rw [List.filter_reverse]
  cases hlacking : entry.node.operands.filter fun b => !layouts.contains b with
  | nil => rfl
  | cons b bs => exact Loop.run_of_inl (by simp [step, h, hentry, hlacking])

theorem run_of_operands {layout : Layout} (h : id ∉ layouts) (hentry : tape.get? id = some entry)
    (hoperands : ∀ b ∈ entry.node.operands, b ∈ layouts)
    (hlayout : layouts.layout? entry = some layout) :
    run tape ⟨id :: rest, layouts⟩ = run tape ⟨rest, layouts.insert id layout⟩ := by
  have hlacking : (entry.node.operands.filter fun b => !layouts.contains b) = [] :=
    List.filter_eq_nil_iff.2 fun b hb => by simpa using hoperands b hb
  exact Loop.run_of_inl (by simp [step, h, hentry, hlacking, hlayout])

end Laying

/-- **The stack does what the traversal says.** Only the operands that are lacking when an entry is
met are put on the stack. So the positions on the stack are compared with a traversal less those
that were laid out at an earlier moment, `earlier`: a traversal would skip them. -/
theorem Traverses.run_eq {tape : Tape} {ids : List NodeId} {layouts layouts' : Layouts}
    {complete : Bool} (h : Traverses tape ids layouts complete layouts') :
    ∀ (earlier : Layouts) (rest : List NodeId), (∀ id ∈ earlier, id ∈ layouts) →
      Laying.run tape ⟨(ids.filter fun id => !earlier.contains id) ++ rest, layouts⟩ =
        if complete then Laying.run tape ⟨rest, layouts'⟩ else some (false, layouts') := by
  induction h with
  | done => exact fun _ _ _ => rfl
  | @skip id _ _ _ _ hmem _ ih =>
    intro earlier rest hearlier
    by_cases hid : id ∈ earlier
    · rw [List.filter_cons_of_neg (by simpa using hid)]
      exact ih earlier rest hearlier
    · rw [List.filter_cons_of_pos (by simpa using hid), List.cons_append, Laying.run_of_mem hmem]
      exact ih earlier rest hearlier
  | @missing id _ _ hmem hentry =>
    intro earlier rest hearlier
    have hid : id ∉ earlier := fun hid => hmem (hearlier id hid)
    rw [List.filter_cons_of_pos (by simpa using hid), List.cons_append,
      Laying.run_of_missing hmem hentry]
    rfl
  | @brokenOff id _ _ layouts _ hmem hentry _ ih =>
    intro earlier rest hearlier
    have hid : id ∉ earlier := fun hid => hmem (hearlier id hid)
    rw [List.filter_cons_of_pos (by simpa using hid), List.cons_append,
      Laying.run_of_lacking hmem hentry]
    exact ih layouts _ fun _ h => h
  | @layOut id _ _ _ layouts below _ _ hmem hentry hoperands hnew hlayout hrest ihoperands ihrest =>
    intro earlier rest hearlier
    have hid : id ∉ earlier := fun hid => hmem (hearlier id hid)
    have hbelow : ∀ b ∈ _, b ∈ below := fun b hb => hoperands.mem rfl b (List.mem_reverse.2 hb)
    rw [List.filter_cons_of_pos (by simpa using hid), List.cons_append,
      Laying.run_of_lacking hmem hentry, ihoperands layouts _ fun _ h => h, if_pos rfl,
      Laying.run_of_operands hnew hentry hbelow hlayout]
    refine ihrest earlier rest fun b hb => ?_
    exact (Layouts.extends_insert hnew _).mem (hoperands.kept.mem (hearlier b hb))

/-- **A traversal is not broken off exactly when no position off the tape is reached.** -/
theorem Traverses.complete_iff {tape : Tape} {id : NodeId} {layouts layouts' : Layouts}
    {complete : Bool} (h : Traverses tape [id] layouts complete layouts')
    (hsound : layouts.Sound tape) : complete = true ↔ tape.Complete id := by
  refine ⟨fun hc => (h.sound hsound).complete (h.mem hc id List.mem_cons_self), fun hid => ?_⟩
  rw [← Bool.not_eq_false]
  intro hc
  obtain ⟨a, ha, hnot⟩ := h.exists_not_complete hc
  exact hnot (List.mem_singleton.1 ha ▸ hid)

/-- Laying out one position does what its traversal says. -/
theorem Traverses.run_singleton {tape : Tape} {id : NodeId} {layouts layouts' : Layouts}
    {complete : Bool} (h : Traverses tape [id] layouts complete layouts') :
    Laying.run tape ⟨[id], layouts⟩ = some (complete, layouts') := by
  have hrun := h.run_eq ∅ [] (by simp)
  rw [List.filter_eq_self.2 (by simp), List.append_nil] at hrun
  rw [hrun]
  cases complete with
  | false => rfl
  | true => exact Loop.run_of_inr rfl

/-- **Laying out ends wherever there are no circles**: with the position laid out if it reaches no
position off the tape, and broken off otherwise. -/
theorem Laying.exists_run_eq {tape : Tape} {id : NodeId} {layouts : Layouts} (h : tape.Acyclic id)
    (hsound : layouts.Sound tape) :
    ∃ complete layouts', Laying.run tape ⟨[id], layouts⟩ = some (complete, layouts') ∧
      layouts'.Sound tape ∧ (complete = true → id ∈ layouts') ∧
      (complete = true ↔ tape.Complete id) := by
  obtain ⟨complete, layouts', htraverses⟩ := exists_traverses h layouts
  exact ⟨complete, layouts', htraverses.run_singleton, htraverses.sound hsound,
    fun hc => htraverses.mem hc id List.mem_cons_self, htraverses.complete_iff hsound⟩

end RpnTape
