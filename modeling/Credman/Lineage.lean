import Credman.Mirror

/-! The history of one store: what its applications can become, and what no history
undoes in its records and grants. -/
namespace Credman

open Library Library.Checked Relation Application DurableVault

variable {P : Platform}

namespace Application

variable {app mid next : Application} {since : Nat}

/-- What an application of a store can have become, in steps that draw no number below `since`. -/
inductive Evolves (P : Platform) (since : Nat) (app : Application) : Application → Prop
  | refl : Evolves P since app app
  | ran {b n : Nat} {call : Call} {mid next : Application} (h : Evolves P since app mid)
      (hvalid : mid.Valid P) (hlasting : Lasting P n mid) (hsince : since ≤ n)
      (hruns : call.Runs P b n mid next) : Evolves P since app next
  | compacted {n : Nat} {mid : Application} (h : Evolves P since app mid) (hvalid : mid.Valid P)
      (hlasting : Lasting P n mid) : Evolves P since app mid.compact
  | recovered {mid next : Application} (h : Evolves P since app mid) (hvalid : mid.Valid P)
      (hclosed : Closed false mid next) : Evolves P since app next
  | renumbered {mid : Application} (h : Evolves P since app mid) (g : UInt64) (p : Option Digest) :
    Evolves P since app { mid with generation := g, predecessor := p }
  /-- An image is opened, whose clock is behind the one in memory. -/
  | clocked {mid : Application} (h : Evolves P since app mid) (last : Option Time) (frozen : Bool) :
    Evolves P since app { mid with lastTime := last, clockFrozen := frozen }

namespace Evolves

theorem trans (h : app.Evolves P since mid) (h' : mid.Evolves P since next) : app.Evolves P since next := by
  induction h' with
  | refl => exact h
  | ran _ hvalid hlasting hsince hruns ih => exact ih.ran hvalid hlasting hsince hruns
  | compacted _ hvalid hlasting ih => exact ih.compacted hvalid hlasting
  | recovered _ hvalid hclosed ih => exact ih.recovered hvalid hclosed
  | renumbered _ g p ih => exact ih.renumbered g p
  | clocked _ last frozen ih => exact ih.clocked last frozen

theorem weaken {since' : Nat} (h : app.Evolves P since next) (hle : since' ≤ since) :
    app.Evolves P since' next := by
  induction h with
  | refl => exact .refl
  | ran _ hvalid hlasting hsince hruns ih => exact ih.ran hvalid hlasting (hle.trans hsince) hruns
  | compacted _ hvalid hlasting ih => exact ih.compacted hvalid hlasting
  | recovered _ hvalid hclosed ih => exact ih.recovered hvalid hclosed
  | renumbered _ g p ih => exact ih.renumbered g p
  | clocked _ last frozen ih => exact ih.clocked last frozen

/-- An application with another clock is a history apart, either way. -/
theorem of_clock (h : app.Evolves P since next) (last : Option Time) (frozen : Bool) :
    ({ app with lastTime := last, clockFrozen := frozen } : Application).Evolves P since next :=
  (Evolves.clocked .refl app.lastTime app.clockFrozen).trans h

end Evolves

theorem evolves_clockOnly {now : Time} (h : app.ClockOnly now next) : app.Evolves P since next := by
  cases h with
  | ticked =>
    unfold ticked
    split_ifs
    · exact .clocked .refl _ app.clockFrozen
    · exact .refl
  | frozen => exact .clocked .refl app.lastTime true

/-- Whatever is asked of a store, its applications go on from where they were. -/
theorem keeps_evolves (app : Application) (since : Nat) (call : Call) :
    Keeps P (app.Evolves P since) since call where
  ran _ hsince hvalid hlasting h hruns := h.ran hvalid hlasting hsince hruns
  compacted hvalid hlasting h := h.compacted hvalid hlasting
  renumbered g p h := h.renumbered g p
  recovered _ hvalid hclosed h := h.recovered hvalid hclosed

end Application

/-! What a store carries goes on from the application of its owner, ready or not. -/

theorem Shown.Carries.swapped {φ : Application → Prop} {n : Nat} {previous image : Bytes}
    {d d' : Dir FileName} {stage : Stage} (himage : Opens P φ image) (hfits : image.length ≤ maxImage)
    (hprevious : previous.length ≤ maxImage) (hstage : stage = .swapped ∨ stage = .cleared)
    (hreached : Reached P n previous image d stage d') : (shown d').Carries P φ := by
  have hstate : d' .state = some image := by
    rw [hreached.state]
    rcases hstage with rfl | rfl <;> rfl
  have hrecovery : d' .recovery = none :=
    (hreached.frame .recovery (by simp) (by simp) (by simp)).trans hreached.no_recovery
  refine ⟨fun found hfound => ?_, fun bytes gate hpending hgate => ?_, fun bytes gate hplan => ?_⟩
  · have hfound' : d' .state = some found := hfound
    rw [hstate, Option.some.injEq] at hfound'
    exact hfound' ▸ himage
  · have hpending' : d' .pending = some bytes := hpending
    rw [hreached.pending] at hpending'
    obtain ⟨previous', next⟩ := gate
    rcases hstage with rfl | rfl
    · cases hpending'
      rw [← List.take_length (l := gateBytes previous image)] at hgate
      obtain ⟨-, -, rfl⟩ := parseGate_take hprevious hfits hgate
      exact himage
    · cases hpending'
  · have hplan' : d' .recovery = some bytes := hplan
    rw [hrecovery] at hplan'
    cases hplan'

/-- A publication that succeeded leaves nothing to take up but its image. -/
theorem Published.exact (hseals : P.Seals) {store store' : Store} {next : Application} {key : VaultKey}
    {salt : Salt} {kdf : KdfParams} {m : Nat} {d d' : Dir FileName} (hdated : next.Timestamped)
    (hfits : ∀ image, store.currentImage = some image → image.length ≤ maxImage)
    (h : Published P store next key salt kdf m d (store', .durable) d') :
    (shown d').Carries P fun app => app = next := by
  have hprevious : (store.currentImage.getD []).length ≤ maxImage := by
    cases hcurrent : store.currentImage with
    | none => exact Nat.zero_le _
    | some image => exact hfits image hcurrent
  have hopens : ∀ {image : Bytes}, sealImage P next key salt kdf (P.nonce m) = .ok image →
      Opens P (fun app => app = next) image ∧ image.length ≤ maxImage := fun hseal =>
    ⟨opens_of_seal hseals hdated hseal rfl, (sealImage_fits hseals hseal).1⟩
  cases h with
  | gating hseal hstage hreached =>
    obtain ⟨himage, hlength⟩ := hopens hseal
    exact .swapped himage hlength hprevious hstage hreached
  | durable _ hseal hreached =>
    obtain ⟨himage, hlength⟩ := hopens hseal
    exact .swapped himage hlength hprevious (.inr rfl) hreached

theorem Shown.Carries.and {φ ψ : Application → Prop} {s : Shown} (h : s.Carries P φ)
    (h' : s.Carries P ψ) : s.Carries P fun app => φ app ∧ ψ app where
  state image hs phrase u hu := ⟨h.state image hs phrase u hu, h'.state image hs phrase u hu⟩
  pending bytes gate hs hgate phrase u hu :=
    ⟨h.pending bytes gate hs hgate phrase u hu, h'.pending bytes gate hs hgate phrase u hu⟩
  recovery bytes gate hs hgate phrase u hu :=
    ⟨h.recovery bytes gate hs hgate phrase u hu, h'.recovery bytes gate hs hgate phrase u hu⟩

/-- A store without a gate carries what its one image opens to. -/
theorem Shown.Carries.of_state {image : Bytes} {phrase : String} {u : Unsealed} {d : Dir FileName}
    (hseals : P.Seals) (hpending : d .pending = none) (hrecovery : d .recovery = none)
    (hstate : d .state = some image) (hunseal : unsealImage P image phrase = .ok u) :
    (shown d).Carries P fun app => app = u.app := by
  refine ⟨fun found hfound => ?_, fun bytes gate hbytes => ?_, fun bytes gate hbytes => ?_⟩
  · have hfound' : d .state = some found := hfound
    rw [hstate, Option.some.injEq] at hfound'
    subst hfound'
    exact fun phrase' u' hu' => unsealImage_unique hseals hunseal hu'
  · have hbytes' : d .pending = some bytes := hbytes
    rw [hpending] at hbytes'
    cases hbytes'
  · have hbytes' : d .recovery = some bytes := hbytes
    rw [hrecovery] at hbytes'
    cases hbytes'

/-- Every image that could be taken up is a later state of the owner's application. -/
def Trails (P : Platform) (n : Nat) (store : StoreState) : Prop :=
  ∀ owner, store.owner = some owner → ∃ since ≤ n, Lasting P since owner.app
    ∧ (shown store.dir).Carries P (owner.app.Evolves P since)

namespace Trails

variable {n n' b : Nat} {store store' : StoreState} {d d' : Dir FileName} {owner : DurableVault}
  {backups : List Bytes} {call : Call} {s s' : Session}

theorem later (h : Trails P n store) (hle : n ≤ n') : Trails P n' store := by
  intro owner howner
  obtain ⟨since, hsince, hrest⟩ := h owner howner
  exact ⟨since, hsince.trans hle, hrest⟩

theorem unowned : Trails P n ⟨d, none⟩ := fun _ => nofun

/-- All that is carried is what the owner has in memory. -/
theorem exact (hlasting : Lasting P n owner.app)
    (h : (shown d).Carries P fun app => app = owner.app) : Trails P n ⟨d, some owner⟩ := by
  intro owner' howner
  cases howner
  exact ⟨n, le_refl n, hlasting, h.mono fun app heq => heq ▸ .refl⟩

/-- The owner's application has moved on in memory, by the clock only. -/
theorem clocked {next : Application} (h : Trails P n ⟨d, some owner⟩)
    (hnext : ∃ last frozen, next = { owner.app with lastTime := last, clockFrozen := frozen }) :
    Trails P n ⟨d, some { owner with app := next }⟩ := by
  obtain ⟨last, frozen, rfl⟩ := hnext
  intro owner' howner
  cases howner
  obtain ⟨since, hsince, hlasting, hcarries⟩ := h owner rfl
  exact ⟨since, hsince, hlasting.of_eq rfl rfl rfl rfl rfl,
    hcarries.mono fun app hevolves => hevolves.of_clock last frozen⟩

/-- What is published goes on from the owner's application. -/
theorem evolves {since : Nat} {next : Application} {key : VaultKey} {salt : Salt} {kdf : KdfParams}
    (hvalid : owner.app.Valid P) (hlasting : Lasting P n owner.app) (hsince : since ≤ n)
    (h : owner.Publishes P b n n' call next key salt kdf) : owner.app.Evolves P since next := by
  cases h with
  | @commit _ candidate _ hran hstage =>
    obtain ⟨rfl, -⟩ := stage_some hstage
    obtain ⟨hstaged, hstagedLasting, -⟩ := staged_lasting hvalid hlasting
    have hcompacted : owner.app.Evolves P since owner.staged := by
      unfold staged
      split_ifs
      · exact .compacted .refl hvalid hlasting
      · exact .refl
    exact (hcompacted.ran hstaged hstagedLasting hsince hran.run).renumbered _ candidate.predecessor
  | rekey n hcandidate =>
    obtain ⟨-, -, -, -, -, previous, -, rfl⟩ := rekeyCandidate_eq_ok.mp hcandidate
    exact .renumbered .refl _ _

/-- A publication, whatever became of it. -/
theorem published (hids : P.FreshIds) (hseals : P.Seals) {next : Application} {key : VaultKey}
    {salt : Salt} {kdf : KdfParams} {m : Nat} {out : Store × Publication} (hle : n ≤ n')
    (hkept : Kept P (fun _ => True) n ⟨d, some owner⟩)
    (hpublishes : owner.Publishes P b n n' call next key salt kdf)
    (hpublished : Published P owner.store next key salt kdf m d out d')
    (h : Trails P n ⟨d, some owner⟩) : Trails P n' ⟨d', some (owner.after next out)⟩ := by
  have hvalid := hkept.valid owner rfl
  have hlasting := hkept.lasting owner rfl
  obtain ⟨since, hsince, hlasting', hcarries⟩ := h owner rfl
  obtain ⟨-, hnextLasting, -⟩ := Kept.publishes hids (keeps_true call) (Nat.zero_le _) (Nat.zero_le _) hle
    hvalid hlasting trivial hpublishes
  obtain ⟨store, outcome⟩ := out
  cases outcome with
  | notPublished | unknown =>
    -- the images are as they were, or the new one
    intro owner' howner
    cases howner
    refine ⟨since, hsince.trans hle, hlasting', ?_⟩
    have hold := ((hkept.later hle).carries.mono fun _ h => h.1).and hcarries
    exact (Kept.publication hseals hnextLasting (evolves hvalid hlasting hsince hpublishes)
      (hkept.fits owner · rfl) hold hpublished).2.mono fun _ h => h.2
  | durable =>
    exact .exact hnextLasting (hpublished.exact hseals hnextLasting.dated (hkept.fits owner · rfl))

theorem event (hids : P.FreshIds) (hseals : P.Seals) (hkept : Kept P (fun _ => True) s.drawn store)
    (hcopies : Copies P (fun _ => True) s.drawn backups)
    (hevent : Event P backups b call (store, s) (store', s')) (h : Trails P s.drawn store) :
    Trails P s'.drawn store' := by
  cases hevent with
  | drawn hlater => exact h.later hlater.drawn
  | dropped => exact unowned
  | cutOff => exact unowned
  | creationCut => exact unowned
  | attempted => exact unowned
  | handed => exact h
  | @memory d owner candidate s s' hlater => exact (h.later hlater.drawn).clocked ⟨_, _, rfl⟩
  | published hlater _ hpublishes hpublished =>
    exact h.published hids hseals hlater.drawn hkept hpublishes hpublished
  | @authorized d owner app s _ _ _ now hclock =>
    refine h.clocked ?_
    cases hclock with
    | ticked =>
      unfold ticked
      split_ifs
      · exact ⟨some now, owner.app.clockFrozen, rfl⟩
      · exact ⟨owner.app.lastTime, owner.app.clockFrozen, rfl⟩
    | frozen => exact ⟨owner.app.lastTime, true, rfl⟩
  | @frozen d owner s =>
    intro owner' howner
    cases howner
    exact h owner rfl
  | @created d d' mnemonic app s s' n result hlater hfrom hcreated =>
    obtain ⟨-, hlasting⟩ := hfrom.sound hcopies
    cases hcreated with
    | refused => exact unowned
    | @published bytes key store outcome d' hencode hderive hstate hpending hrecovery hpublished =>
      cases outcome with
      | notPublished | unknown => exact unowned
      | durable =>
        have hnext := hlasting.later hlater.drawn
        exact .exact hnext (hpublished.exact hseals hnext.dated (Kept.newStore_fits _ _))
  | opened hcall hopened =>
    obtain ⟨image, u, hstate, hunseal, rfl⟩ := hopened.image
    exact .exact (hkept.carries.state image hstate _ u hunseal).1
      (.of_state hseals hopened.no_pending hopened.no_recovery hstate hunseal)
  | @recovered m m' mnemonic admin now owner hcall hattempted hrecovered =>
    have hafter := hkept.event hids hseals (keeps_true call) (Nat.zero_le b) (Nat.zero_le _)
      (fun _ => fun _ => trivial) hcopies (.recovered hcall hattempted hrecovered)
    obtain ⟨image, u, hshown, hunseal, -, -⟩ := hrecovered.opens hseals (hkept.carries.mono fun _ h => h.1)
    exact .exact (hafter.lasting owner rfl) (.of_state hseals (congrArg Shown.pending hshown)
      (congrArg Shown.recovery hshown) (congrArg Shown.state hshown) hunseal)

theorem step {fleet : Fleet} {i : Nat} (hids : P.FreshIds) (hseals : P.Seals) (hsound : Sound P fleet)
    (call : Call) (faults : List Fault) (h : ∀ j, Trails P fleet.session.drawn (fleet.stores j)) (j : Nat) :
    Trails P (fleet.step P i call faults).1.session.drawn ((fleet.step P i call faults).1.stores j) := by
  have hstepped := stepped hseals fleet i call faults
  have hall : ∀ {x y : StoreState × Session},
      ReflTransGen (Event P fleet.backups fleet.session.drawn call) x y →
      Kept P (fun _ => True) x.2.drawn x.1 → Copies P (fun _ => True) x.2.drawn fleet.backups →
      Trails P x.2.drawn x.1 → Trails P y.2.drawn y.1 := by
    intro x y hevents hkept hcopies hx
    induction hevents with
    | refl => exact hx
    | tail hevents hevent ih =>
      obtain ⟨hmid, hle, -⟩ := hkept.events hids hseals (keeps_true call) (Nat.zero_le _) (Nat.zero_le _)
        (.inr fun _ => trivial) hcopies hevents
      exact ih.event hids hseals hmid (hcopies.later hle) hevent
  by_cases hj : j = i
  · subst hj
    exact hall hstepped.events (hsound.stores j) hsound.backups (h j)
  · rw [hstepped.frame j hj]
    exact (h j).later hstepped.later

end Trails

theorem Published.founds {store store' : Store} {next : Application} {key : VaultKey} {salt : Salt}
    {kdf : KdfParams} {m : Nat} {d d' : Dir FileName}
    (h : Published P store next key salt kdf m d (store', .durable) d') : d' .state ≠ none := by
  cases h with
  | gating _ hstage hreached =>
    rw [hreached.state]
    rcases hstage with rfl | rfl <;> nofun
  | durable _ _ hreached =>
    rw [hreached.state]
    nofun

/-- A store with an owner has a state. -/
def Housed (store : StoreState) : Prop := store.owner ≠ none → store.dir .state ≠ none

theorem Housed.event {backups : List Bytes} {b : Nat} {call : Call} {store store' : StoreState}
    {s s' : Session} (hevent : Event P backups b call (store, s) (store', s')) (h : Housed store) :
    Housed store' := by
  intro howner
  by_cases hstate : store.dir .state = none
  · cases hevent with
    | drawn | handed => exact absurd hstate (h howner)
    | memory | published | authorized | frozen => exact absurd hstate (h nofun)
    | dropped | cutOff | creationCut | attempted => exact absurd rfl howner
    | created _ _ hcreated =>
      cases hcreated with
      | refused => exact absurd rfl howner
      | @published _ _ _ outcome _ _ _ _ _ _ hpublished =>
        cases outcome with
        | notPublished | unknown => exact absurd rfl howner
        | durable => exact hpublished.founds
    | opened _ hopened =>
      obtain ⟨image, u, hsome, -, -⟩ := hopened.image
      exact absurd (hstate.symm.trans hsome) nofun
    | recovered _ _ hrecovered =>
      obtain ⟨-, -, -, image, -, -, -, -, -, hshown, -⟩ := hrecovered.exact
      have hsome : _ = some image := congrArg Shown.state hshown
      exact fun hnone => absurd (hnone.symm.trans hsome) nofun
  · exact hevent.founded hstate

/-! Runs. -/

section Runs

variable {fleet fleet' : Fleet} {i : Nat} {owner owner' : DurableVault}

/-- In every fleet there can be, what a store carries goes on from its owner's application. -/
theorem Fleet.Reachable.trails (hids : P.FreshIds) (hseals : P.Seals) (h : Fleet.Reachable P fleet) :
    ∀ i, Trails P fleet.session.drawn (fleet.stores i) := by
  induction h with
  | refl => exact fun _ => .unowned
  | tail hreach hstep ih =>
    obtain ⟨i, call, faults, -, rfl⟩ := hstep
    exact Trails.step hids hseals (Fleet.Reachable.sound hids hseals hreach) call faults ih

theorem Fleet.Reachable.housed (hseals : P.Seals) (h : Fleet.Reachable P fleet) (i : Nat) :
    Housed (fleet.stores i) := by
  induction h with
  | refl => exact fun hno => absurd rfl hno
  | @tail mid _ _ hstep ih =>
    obtain ⟨j, call, faults, -, rfl⟩ := hstep
    have hstepped := stepped hseals mid j call faults
    have hall : ∀ {x y : StoreState × Session},
        ReflTransGen (Event P mid.backups mid.session.drawn call) x y → Housed x.1 → Housed y.1 := by
      intro x y hevents hx
      induction hevents with
      | refl => exact hx
      | tail _ hevent ih => exact ih.event hevent
    by_cases hi : i = j
    · subst hi
      exact hall hstepped.events ih
    · rw [hstepped.frame i hi]
      exact ih

theorem Fleet.Runs.reachable {allows : Fleet → Nat → Call → Prop} (h : Fleet.Reachable P fleet)
    (hruns : Fleet.Runs P allows fleet fleet') : Fleet.Reachable P fleet' := by
  induction hruns with
  | refl => exact h
  | tail _ hstep ih =>
    obtain ⟨i, call, faults, -, rfl⟩ := hstep
    exact ih.step i call faults

/-- A law that holds of an owner's application and of all its store carries. -/
theorem Fleet.Reachable.lawful {φ : Application → Prop} {since : Nat} (hids : P.FreshIds)
    (hseals : P.Seals) (h : Fleet.Reachable P fleet) (howner : (fleet.stores i).owner = some owner)
    (hsince : since ≤ fleet.session.drawn) (hφ : φ owner.app)
    (hcarries : (shown (fleet.stores i).dir).Carries P φ) : Lawful P φ since i fleet where
  sound := h.sound hids hseals
  kept := by
    have hkept := (h.sound hids hseals).stores i
    refine ⟨hkept.valid, hkept.lasting, fun other hother => ?_, hkept.fits,
      (hkept.carries.mono fun _ h => h.1).and hcarries⟩
    rw [howner, Option.some.injEq] at hother
    exact hother ▸ hφ
  founded := h.housed hseals i (by rw [howner]; nofun)
  since_le := hsince

/-- The application of a store goes on from every earlier one: over calls, restarts, crashes
and recoveries, and whatever is asked of other stores. -/
theorem Fleet.Reachable.evolves {allows : Fleet → Nat → Call → Prop} (hids : P.FreshIds)
    (hseals : P.Seals) (h : Fleet.Reachable P fleet) (howner : (fleet.stores i).owner = some owner)
    (hruns : Fleet.Runs P allows fleet fleet') (howner' : (fleet'.stores i).owner = some owner') :
    ∃ since, Lasting P since owner.app ∧ owner.app.Evolves P since owner'.app := by
  obtain ⟨since, hsince, hlasting, hcarries⟩ := h.trails hids hseals i owner howner
  have hlawful := h.lawful hids hseals howner hsince .refl hcarries
  have hafter := hlawful.runs hids hseals
    (fun mid call faults hmid _ => hmid.keeps hids hseals (keeps_evolves owner.app since call) faults) hruns
  exact ⟨since, hlasting, hafter.kept.holds owner' howner'⟩

end Runs

end Credman
