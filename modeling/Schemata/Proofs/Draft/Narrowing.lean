import Schemata.Proofs.Draft.Build

/-! The scalars of a finished graph, with all that narrows them.

A place has a scalar if there is one, if it refers to a place that has it, or if it
narrows what another place has. The passes that complete a draft put scalars at
narrowed places only, and these are the ones that the places have all along
(`scalarsFrom_of_build`). -/
namespace Schemata

namespace Draft

variable {d d' d'' : Draft} {id root : ElementId} {place q : TypeInfoId} {arity : Arity}
  {s : ScalarShape}

/-! ### The scalar of a place -/

/-- A place has a scalar, with everything that narrows it on the way. -/
inductive HasScalar (d : Draft) : TypeInfoId → ScalarShape → Prop
  | here {place : TypeInfoId} {arity : Arity} {s : ScalarShape}
    (h : d.typeInfos.get? place = some ⟨arity, .scalar s⟩) : HasScalar d place s
  | behind {place q : TypeInfoId} {arity : Arity} {s : ScalarShape}
    (h : d.typeInfos.get? place = some ⟨arity, .ref q⟩) (hs : HasScalar d q s) :
    HasScalar d place s
  | narrowed {place : TypeInfoId} {n : Narrowing} {s : ScalarShape}
    (h : d.narrowings.find? place = some n) (hs : HasScalar d n.source s) :
    HasScalar d place { s with constraints := s.constraints.insertAll n.overlay.entries }

theorem hasScalar_of_resolveFrom {bound : Nat}
    (h : d.HasScalar (d.typeInfos.resolveFrom bound place) s) : d.HasScalar place s := by
  induction bound generalizing place with
  | zero => exact h
  | succ bound ih =>
    unfold TypeInfoArena.resolveFrom at h
    cases hr : d.typeInfos.refAt place with
    | none =>
      rw [hr] at h
      exact h
    | some target =>
      rw [hr] at h
      unfold TypeInfoArena.refAt at hr
      obtain ⟨⟨arity, shape⟩, hget, href⟩ := Option.bind_eq_some_iff.1 hr
      cases shape <;> cases href
      exact .behind hget (ih h)

theorem hasScalar_of_scalarFrom {bound : Nat} (h : d.scalarFrom bound place = some s) :
    d.HasScalar place s := by
  induction bound generalizing place s with
  | zero => cases h
  | succ bound ih =>
    suffices hend : d.HasScalar (d.typeInfos.resolve place) s from hasScalar_of_resolveFrom hend
    unfold scalarFrom at h
    dsimp only at h
    split at h
    · next n hn =>
      obtain ⟨s', hs', rfl⟩ := Option.map_eq_some_iff.1 h
      exact .narrowed hn (ih hs')
    · split at h
      · next arity s' hget =>
        cases h
        exact .here hget
      · cases h

/-- A place has one scalar at most. -/
theorem HasScalar.unique (hi : d.Indexed) {s' : ScalarShape} (h : d.HasScalar place s)
    (h' : d.HasScalar place s') : s = s' := by
  induction h generalizing s' with
  | here hget =>
    cases h' with
    | here hget' =>
      cases hget.symm.trans hget'
      rfl
    | behind hget' _ => cases hget.symm.trans hget'
    | narrowed hn _ => cases hget.symm.trans (hi.narrowed _ _ hn).1
  | behind hget _ ih =>
    cases h' with
    | here hget' => cases hget.symm.trans hget'
    | behind hget' hs' =>
      cases hget.symm.trans hget'
      exact ih hs'
    | narrowed hn _ => cases hget.symm.trans (hi.narrowed _ _ hn).1
  | narrowed hn _ ih =>
    cases h' with
    | here hget' => cases (hi.narrowed _ _ hn).1.symm.trans hget'
    | behind hget' _ => cases (hi.narrowed _ _ hn).1.symm.trans hget'
    | narrowed hn' hs' =>
      cases hn.symm.trans hn'
      rw [ih hs']

/-! ### From pass to pass -/

/-- Scalars are where they were, or have been put at a narrowed place that had them. Refs and
narrowings may be gone, but none is new. -/
structure ScalarsFrom (d d' : Draft) : Prop where
  scalar : ∀ place arity s, d'.typeInfos.get? place = some ⟨arity, .scalar s⟩ →
    d.typeInfos.get? place = some ⟨arity, .scalar s⟩ ∨
      (d.narrowings.find? place).isSome ∧ d.HasScalar place s
  ref : ∀ place arity q, d'.typeInfos.get? place = some ⟨arity, .ref q⟩ →
    d.typeInfos.get? place = some ⟨arity, .ref q⟩
  narrowing : ∀ place n, d'.narrowings.find? place = some n → d.narrowings.find? place = some n

namespace ScalarsFrom

theorem refl (d : Draft) : d.ScalarsFrom d :=
  ⟨fun _ _ _ h => .inl h, fun _ _ _ h => h, fun _ _ h => h⟩

theorem hasScalar (h : d.ScalarsFrom d') (hs : d'.HasScalar place s) : d.HasScalar place s := by
  induction hs with
  | here hget => exact (h.scalar _ _ _ hget).elim .here And.right
  | behind hget _ ih => exact .behind (h.ref _ _ _ hget) ih
  | narrowed hn _ ih => exact .narrowed (h.narrowing _ _ hn) ih

theorem trans (h : d.ScalarsFrom d') (h' : d'.ScalarsFrom d'') : d.ScalarsFrom d'' where
  scalar place arity s hget := by
    rcases h'.scalar place arity s hget with hget | ⟨hn, hs⟩
    · exact h.scalar place arity s hget
    · obtain ⟨n, hn⟩ := Option.isSome_iff_exists.1 hn
      refine .inr ⟨?_, h.hasScalar hs⟩
      rw [h.narrowing place n hn]
      rfl
  ref place arity q hget := h.ref place arity q (h'.ref place arity q hget)
  narrowing place n hn := h.narrowing place n (h'.narrowing place n hn)

/-- A pass that touches records and alternatives only. -/
theorem of_others (hget : ∀ place arity shape, d'.typeInfos.get? place = some ⟨arity, shape⟩ →
      (∀ c, shape ≠ .record c) → (∀ alternatives, shape ≠ .anyOf alternatives) →
      d.typeInfos.get? place = some ⟨arity, shape⟩)
    (hn : d'.narrowings = d.narrowings) : d.ScalarsFrom d' :=
  ⟨fun place arity _ h => .inl (hget place arity _ h nofun nofun),
    fun place arity _ h => hget place arity _ h nofun nofun, fun _ _ h => hn ▸ h⟩

end ScalarsFrom

theorem scalarsFrom_settleNarrowing (hi : d.Indexed) (h : d.settleNarrowing id = .ok d') :
    d.ScalarsFrom d' := by
  unfold settleNarrowing at h
  split at h
  · cases h
    exact .refl d
  · next place _ =>
    split at h
    · next hcontains =>
      obtain ⟨n, hn⟩ := Option.isSome_iff_exists.1 hcontains
      split at h
      · next s hs =>
        cases h
        have hgets := get?_scalarSettled hi hn s
        refine ⟨fun q arity s' hget => ?_, fun q arity q' hget => ?_, fun q m hm => ?_⟩
        · have hget' := (hgets q).symm.trans hget
          split at hget'
          · next hq =>
            cases hget'
            exact .inr ⟨hq ▸ hcontains, hq ▸ hasScalar_of_scalarFrom hs⟩
          · exact .inl hget'
        · have hget' := (hgets q).symm.trans hget
          split at hget'
          · cases hget'
          · exact hget'
        · have hm' := (OrderedMap.find?_erase _ place q).symm.trans hm
          split at hm'
          · cases hm'
          · exact hm'
      · cases h
    · cases h
      exact .refl d

theorem scalarsFrom_nameField {name : String} (h : d.nameField id name = .ok d') :
    d.ScalarsFrom d' := by
  rcases nameField_ok h with ⟨arity, c, hrecord, _, rfl⟩ | ⟨_, rfl⟩
  · refine .of_others (fun q arity' shape hget hr _ => ?_) rfl
    rw [get?_valueNamed name hrecord] at hget
    split at hget
    · cases hget
      exact absurd rfl (hr _)
    · exact hget
  · exact .refl _

theorem scalarsFrom_settleValue (hi : d.Indexed) (h : d.settleValue id = .ok d') :
    d.ScalarsFrom d' := by
  unfold settleValue at h
  split at h
  · next attributes _ _ =>
    obtain ⟨d₁, h₁, h⟩ := bind_eq_ok h
    obtain ⟨d₂, h₂, h⟩ := bind_eq_ok h
    cases h
    have hdata : d₂.ScalarsFrom (d₂.setData id (.simple attributes (d.valueName id))) :=
      .of_others (fun _ _ _ hget _ _ => hget) rfl
    exact (scalarsFrom_settleNarrowing hi h₁).trans ((scalarsFrom_nameField h₂).trans hdata)
  · cases h
    exact .refl d

theorem scalarsFrom_settleAllValues (hi : d.Indexed) (hnamed : d.Unnamed)
    (h : d.settleAllValues root = .ok d') : d.ScalarsFrom d' :=
  (foldlM_ok (fun done d' => ValuesSettled d done d' ∧ d.ScalarsFrom d') h
    ⟨⟨.refl d, hi, fun _ _ => rfl, fun _ _ hv => hv, fun _ hj => by cases hj⟩, .refl d⟩
    fun done id rest d₁ d₂ hl ⟨hs, hfrom⟩ hstep => by
      have hn := d.nodup_walk root
      rw [hl] at hn
      exact ⟨hs.step hnamed hn hstep, hfrom.trans (scalarsFrom_settleValue hs.indexed hstep)⟩).2

theorem scalarsFrom_flattenVariants (d : Draft) (root : ElementId) :
    d.ScalarsFrom (d.flattenVariants root) := by
  have hone : ∀ (d : Draft) (id : ElementId), d.ScalarsFrom (d.flattenVariant id) := fun d id => by
    unfold flattenVariant
    split
    · refine .of_others (fun q arity shape hget _ ha => ?_) rfl
      rcases d.typeInfos.get?_flattenAt (d.element id).typeInfo q with he | ⟨_, _, _, he⟩
      · exact he.symm.trans hget
      · rw [show _ = some _ from hget] at he
        cases he
        exact absurd rfl (ha _)
    · exact .refl d
  unfold flattenVariants
  generalize d.walk root = l
  induction l generalizing d with
  | nil => exact .refl d
  | cons id rest ih => exact (hone d id).trans (ih (d.flattenVariant id))

end Draft

/-! ### The build of a tree -/

namespace ItemTree

open Draft

variable {t : ItemTree} {plugin : Plugin} {P : ItemId → Prop} {d d' : Draft} {c : Compiled}

/-- The types of a finished graph are those of a draft whose scalars come from the assembled one. -/
theorem scalarsFrom_of_build (h : t.build plugin = .ok c) (hbuilt : t.BuiltBy plugin P d d' c) :
    ∃ d'', d.ScalarsFrom d'' ∧
      ∀ place, c.graph.typeInfos.get? place = d''.typeInfos.get? place := by
  obtain ⟨⟨root, d₀⟩, hrun, h⟩ := bind_eq_ok h
  obtain ⟨d₁, h₁, h⟩ := bind_eq_ok h
  obtain ⟨d₂, h₂, h⟩ := bind_eq_ok h
  obtain ⟨g, hg, h⟩ := bind_eq_ok h
  cases h
  obtain rfl : d₀ = d := congrArg Prod.snd (Except.ok.inj (hrun.symm.trans hbuilt.run))
  have hi := hbuilt.assembled.sound.indexed
  have hentries := takeAllEntries_ok hi h₁
  have hunnamed : d₁.Unnamed := fun id attributes name hdata =>
    hbuilt.assembled.unnamed id attributes name ((hentries.data id).symm.trans hdata)
  have hvalues := scalarsFrom_settleAllValues hentries.indexed hunnamed h₂
  refine ⟨d₂.flattenVariants root, .trans (.of_others (fun q arity shape hq _ _ => ?_)
    hentries.narrowings) (hvalues.trans (scalarsFrom_flattenVariants d₂ root)),
    fun place => (finish_ok hg).types place⟩
  rwa [hentries.typeInfos] at hq

end ItemTree
end Schemata
