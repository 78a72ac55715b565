/-
The retention of received offers over whole runs. The age of an offer is compared in the database,
where `created_time_ms / 1000` is a division of integers; the remainder that it drops brings the end
of the retention forward.
-/
import Squeaknode.Db.SqueakDb
import Squeaknode.Interleave.Machine
import Squeaknode.Node.Sample

namespace Squeaknode

open Interleave Relational

namespace SqueakDb

/-! ## One deletion run -/

/-- The invoice of the offer has expired, or the offer has been kept for `intervalS` seconds. -/
def Due (now intervalS : Int) (r : ReceivedOfferRow) : Prop :=
  1000 * (r.invoiceTimestamp + r.invoiceExpiry) ≤ now ∨ r.createdTimeMs + 1000 * intervalS ≤ now

instance (now intervalS : Int) (r : ReceivedOfferRow) : Decidable (Due now intervalS r) :=
  inferInstanceAs (Decidable (_ ∨ _))

/-- The condition of the DELETE statement. -/
def deletesOffer (now intervalS : Int) (r : ReceivedOfferRow) : Bool :=
  receivedOfferInvoiceIsExpired now r || receivedOfferIsOutOfRetention now intervalS r

/-- While the invoice has not expired, `now` is not within the last `created_time_ms % 1000`
milliseconds of the retention; where that remainder is negative, not within the first ones after it. -/
def ClearOfEnd (now intervalS : Int) (r : ReceivedOfferRow) : Prop :=
  now < 1000 * (r.invoiceTimestamp + r.invoiceExpiry) →
    ¬ (r.createdTimeMs + 1000 * intervalS - r.createdTimeMs.tmod 1000 ≤ now ∧
      now < r.createdTimeMs + 1000 * intervalS) ∧
    ¬ (r.createdTimeMs + 1000 * intervalS ≤ now ∧
      now < r.createdTimeMs + 1000 * intervalS - r.createdTimeMs.tmod 1000)

instance (now intervalS : Int) (r : ReceivedOfferRow) : Decidable (ClearOfEnd now intervalS r) :=
  inferInstanceAs (Decidable (_ → _))

theorem deletesOffer_iff {now intervalS : Int} {r : ReceivedOfferRow} :
    deletesOffer now intervalS r = true ↔ 1000 * (r.invoiceTimestamp + r.invoiceExpiry) ≤ now ∨
      r.createdTimeMs + 1000 * intervalS - r.createdTimeMs.tmod 1000 ≤ now := by
  have hdiv := Int.mul_tdiv_add_tmod r.createdTimeMs 1000
  have hend : 1000 * (r.createdTimeMs.tdiv 1000 + intervalS) =
      r.createdTimeMs + 1000 * intervalS - r.createdTimeMs.tmod 1000 := by omega
  unfold deletesOffer receivedOfferInvoiceIsExpired receivedOfferIsOutOfRetention
  rw [Bool.or_eq_true, decide_eq_true_eq, decide_eq_true_eq, ge_iff_le, ge_iff_le, hend]

/-- The statement deletes an offer when it is due, but for a deletion run close to the end of its
retention. -/
theorem deletesOffer_iff_due {now intervalS : Int} {r : ReceivedOfferRow} :
    (deletesOffer now intervalS r = true ↔ Due now intervalS r) ↔ ClearOfEnd now intervalS r := by
  rw [deletesOffer_iff]
  unfold Due ClearOfEnd
  constructor
  · intro h hinvoice
    constructor
    · rintro ⟨hfrom, hto⟩
      rcases h.1 (.inr hfrom) with hdue | hdue <;> omega
    · rintro ⟨hfrom, hto⟩
      rcases h.2 (.inr hfrom) with hdeleted | hdeleted <;> omega
  · intro h
    by_cases hinvoice : 1000 * (r.invoiceTimestamp + r.invoiceExpiry) ≤ now
    · exact ⟨fun _ => .inl hinvoice, fun _ => .inl hinvoice⟩
    · obtain ⟨hlast, hfirst⟩ := h (by omega)
      constructor
      · rintro (hout | hout)
        · exact .inl hout
        · exact .inr (by omega)
      · rintro (hdue | hdue)
        · exact .inl hdue
        · exact .inr (by omega)

/-- A deletion run that deletes the offers that are due: those and no others go, the rest of the
database stays as it is, and the count is the number of offers deleted. -/
structure DeletesDue (now intervalS : Int) (db : Db) (count : Nat) (db' : Db) : Prop where
  offers : ∀ r, r ∈ db'.receivedOffers.rows ↔ r ∈ db.receivedOffers.rows ∧ ¬ Due now intervalS r
  order : db'.receivedOffers.rows.Sublist db.receivedOffers.rows
  rest : db' = { db with receivedOffers := ⟨db'.receivedOffers.rows, db.receivedOffers.lastId⟩ }
  count : count + db'.receivedOffers.rows.length = db.receivedOffers.rows.length

theorem rows_deleteExpired (now intervalS : Int) (db : Db) :
    (deleteExpiredReceivedOffers now intervalS db).2.receivedOffers.rows =
      deleteWhere (deletesOffer now intervalS) db.receivedOffers.rows := rfl

theorem deletesDue_iff (now intervalS : Int) (db : Db) :
    DeletesDue now intervalS db (deleteExpiredReceivedOffers now intervalS db).1
        (deleteExpiredReceivedOffers now intervalS db).2 ↔
      ∀ r ∈ db.receivedOffers.rows, ClearOfEnd now intervalS r := by
  constructor
  · intro h r hr
    refine deletesOffer_iff_due.1 ?_
    have hkept := h.offers r
    rw [rows_deleteExpired, mem_deleteWhere] at hkept
    constructor
    · intro hdeleted
      by_contra hdue
      exact absurd (hkept.2 ⟨hr, hdue⟩).2 (by simp [hdeleted])
    · intro hdue
      by_contra hdeleted
      exact (hkept.1 ⟨hr, eq_false_of_ne_true hdeleted⟩).2 hdue
  · intro h
    refine ⟨fun r => ?_, List.filter_sublist, rfl, ?_⟩
    · rw [rows_deleteExpired, mem_deleteWhere]
      refine and_congr_right fun hr => ?_
      rw [← deletesOffer_iff_due.2 (h r hr), Bool.not_eq_true]
    · have hsplit := List.length_eq_length_filter_add (l := db.receivedOffers.rows) (deletesOffer now intervalS)
      exact hsplit.symm

/-! ## Runs -/

/-- The database with the clock of the node. -/
structure Clocked where
  now : Int
  db : Db

/-- What happens to the received offers. -/
inductive OfferAct where
  /-- time passes -/
  | elapse (ms : Nat)
  | insertReceivedOffer (receivedOffer : ReceivedOffer)
  | setReceivedOfferPaid (paymentHash : Bytes) (paid : Bool)
  | deleteExpiredReceivedOffers (intervalS : Int)

/-- Every statement reads the clock. -/
def offerStep : OfferAct → Clocked → Option Clocked
  | .elapse ms, s => some { s with now := s.now + ms }
  | .insertReceivedOffer receivedOffer, s => some { s with db := (insertReceivedOffer s.now receivedOffer s.db).2 }
  | .setReceivedOfferPaid paymentHash paid, s => some { s with db := setReceivedOfferPaid paymentHash paid s.db }
  | .deleteExpiredReceivedOffers intervalS, s =>
    some { s with db := (deleteExpiredReceivedOffers s.now intervalS s.db).2 }

/-- The offer is in the table, paid or not. -/
def HasOffer (r : ReceivedOfferRow) (db : Db) : Prop := ∃ paid, { r with paid := paid } ∈ db.receivedOffers.rows

/-- The offer was in the table and is not there any more. -/
structure LostOffer (r : ReceivedOfferRow) (db : Db) : Prop where
  issued : r.receivedOfferId ≤ db.receivedOffers.lastId
  gone : ∀ r' ∈ db.receivedOffers.rows, r'.receivedOfferId ≠ r.receivedOfferId

/-- A deletion run of the history was due for the offer. -/
def DueIn (history : List (Clocked × OfferAct)) (r : ReceivedOfferRow) : Prop :=
  ∃ s intervalS, (s, OfferAct.deleteExpiredReceivedOffers intervalS) ∈ history ∧ Due s.now intervalS r

/-- Retention to the millisecond: every deletion run deletes what is due, and an offer that was
inserted is there until the first deletion run that is due for it, and gone from then on. -/
structure RetainsExactly (history : List (Clocked × OfferAct)) (s : Clocked) : Prop where
  deletes : ∀ t intervalS, (t, OfferAct.deleteExpiredReceivedOffers intervalS) ∈ history →
    DeletesDue t.now intervalS t.db (deleteExpiredReceivedOffers t.now intervalS t.db).1
      (deleteExpiredReceivedOffers t.now intervalS t.db).2
  life : ∀ before t receivedOffer after id, history = before ++ (t, .insertReceivedOffer receivedOffer) :: after →
    (insertReceivedOffer t.now receivedOffer t.db).1 = .ok (some id) →
    ∃ host, bindAddress receivedOffer.lightningAddress = .ok (some host) ∧
      ((¬ DueIn after (receivedOfferRow t.now receivedOffer host id) ∧
          HasOffer (receivedOfferRow t.now receivedOffer host id) s.db) ∨
        (DueIn after (receivedOfferRow t.now receivedOffer host id) ∧
          LostOffer (receivedOfferRow t.now receivedOffer host id) s.db))

/-- What the schema demands of received offers. -/
abbrev OfferIds (db : Db) : Prop := db.receivedOffers.Numbered ReceivedOfferRow.receivedOfferId

theorem offerIds_step {s s' : Clocked} {a : OfferAct} (h : offerStep a s = some s') (hs : OfferIds s.db) :
    OfferIds s'.db := by
  cases a with
  | elapse ms =>
    cases h
    exact hs
  | insertReceivedOffer receivedOffer =>
    cases h
    obtain heq | ⟨host, -, heq⟩ := insertReceivedOffer_cases s.now receivedOffer s.db
    · simpa only [heq] using hs
    · simpa only [heq] using hs.insert fun _ => rfl
  | setReceivedOfferPaid paymentHash paid =>
    cases h
    exact hs.update fun _ => rfl
  | deleteExpiredReceivedOffers intervalS =>
    cases h
    exact hs.delete _

theorem hasOffer_insert (now : Int) (receivedOffer : ReceivedOffer) {db : Db} {id : Nat}
    (h : (insertReceivedOffer now receivedOffer db).1 = .ok (some id)) :
    ∃ host, bindAddress receivedOffer.lightningAddress = .ok (some host) ∧
      HasOffer (receivedOfferRow now receivedOffer host id) (insertReceivedOffer now receivedOffer db).2 := by
  cases haddress : bindAddress receivedOffer.lightningAddress with
  | error err => simp only [insertReceivedOffer, haddress, reduceCtorEq] at h
  | ok stored =>
    cases stored with
    | none => simp only [insertReceivedOffer, haddress, reduceCtorEq, Except.ok.injEq] at h
    | some host =>
      refine ⟨host, rfl, ?_⟩
      simp only [insertReceivedOffer, haddress, Except.ok.injEq] at h ⊢
      cases htaken : taken ReceivedOfferRow.paymentHash receivedOffer.paymentHash db.receivedOffers.rows with
      | true =>
        rw [Table.insert_of_taken htaken] at h
        cases h
      | false =>
        rw [Table.insert_of_free htaken] at h ⊢
        cases h
        exact ⟨false, List.mem_append_right _ List.mem_cons_self⟩

theorem LostOffer.step {s s' : Clocked} {a : OfferAct} (h : offerStep a s = some s') {r : ReceivedOfferRow}
    (hr : LostOffer r s.db) : LostOffer r s'.db := by
  cases a with
  | elapse ms =>
    cases h
    exact hr
  | insertReceivedOffer receivedOffer =>
    cases h
    obtain heq | ⟨host, -, heq⟩ := insertReceivedOffer_cases s.now receivedOffer s.db
    · simpa only [heq] using hr
    simp only [heq]
    -- the key of the new row is above the lost one
    have hlost : s.db.receivedOffers.Pinned ReceivedOfferRow.receivedOfferId (fun _ => false) r.receivedOfferId true :=
      ⟨hr.issued, fun r' hr' heq => absurd heq (hr.gone r' hr')⟩
    have hafter : (s.db.receivedOffers.insert ReceivedOfferRow.paymentHash
        (receivedOfferRow s.now receivedOffer host)).2.Pinned ReceivedOfferRow.receivedOfferId (fun _ => false)
        r.receivedOfferId true := hlost.insert fun _ => rfl
    exact ⟨hafter.issued, fun r' hr' heq => Bool.false_ne_true (hafter.column r' hr' heq)⟩
  | setReceivedOfferPaid paymentHash paid =>
    cases h
    refine ⟨hr.issued, fun r' hr' => ?_⟩
    obtain ⟨r₀, hr₀, rfl⟩ := mem_updateWhere.1 hr'
    have hne := hr.gone r₀ hr₀
    split <;> exact hne
  | deleteExpiredReceivedOffers intervalS =>
    cases h
    exact ⟨hr.issued, fun r' hr' => hr.gone r' (mem_deleteWhere.1 hr').1⟩

/-- A step that is not a deletion run which deletes the offer keeps it. -/
theorem HasOffer.step {s s' : Clocked} {a : OfferAct} (h : offerStep a s = some s') {r : ReceivedOfferRow}
    (hr : HasOffer r s.db)
    (hkeep : ∀ intervalS, a = .deleteExpiredReceivedOffers intervalS → deletesOffer s.now intervalS r = false) :
    HasOffer r s'.db := by
  obtain ⟨paid, hrow⟩ := hr
  cases a with
  | elapse ms =>
    cases h
    exact ⟨paid, hrow⟩
  | insertReceivedOffer receivedOffer =>
    cases h
    obtain heq | ⟨host, -, heq⟩ := insertReceivedOffer_cases s.now receivedOffer s.db
    · exact ⟨paid, by simpa only [heq] using hrow⟩
    · exact ⟨paid, by simpa only [heq] using (Table.prefix_insert _ _ _).subset hrow⟩
  | setReceivedOfferPaid paymentHash paid' =>
    cases h
    by_cases hhash : r.paymentHash = paymentHash
    · exact ⟨paid', mem_updateWhere.2 ⟨_, hrow, by simp [hhash]⟩⟩
    · exact ⟨paid, mem_updateWhere.2 ⟨_, hrow, by simp [hhash]⟩⟩
  | deleteExpiredReceivedOffers intervalS =>
    cases h
    exact ⟨paid, mem_deleteWhere.2 ⟨hrow, hkeep intervalS rfl⟩⟩

/-- A deletion run that deletes the offer leaves no row with its id. -/
theorem HasOffer.delete {db : Db} (hdb : OfferIds db) {r : ReceivedOfferRow} (hr : HasOffer r db) {now intervalS : Int}
    (hdelete : deletesOffer now intervalS r = true) : LostOffer r (deleteExpiredReceivedOffers now intervalS db).2 := by
  obtain ⟨paid, hrow⟩ := hr
  have hissued := hdb.issued _ hrow
  refine ⟨hissued, fun r' hr' heq => ?_⟩
  obtain ⟨hr', hkept⟩ := mem_deleteWhere.1 hr'
  cases hdb.unique.eq hr' hrow heq
  have hkept : deletesOffer now intervalS r = false := hkept
  rw [hdelete] at hkept
  cases hkept

/-- The deletion run of a step, if it is one, is clear of the end of the retention of every offer. -/
def Punctual (s : Clocked) (a : OfferAct) : Prop :=
  ∀ intervalS, a = .deleteExpiredReceivedOffers intervalS → ∀ r ∈ s.db.receivedOffers.rows, ClearOfEnd s.now intervalS r

instance (s : Clocked) (a : OfferAct) : Decidable (Punctual s a) :=
  match a with
  | .deleteExpiredReceivedOffers intervalS =>
    decidable_of_iff (∀ r ∈ s.db.receivedOffers.rows, ClearOfEnd s.now intervalS r)
      ⟨fun h j heq => OfferAct.deleteExpiredReceivedOffers.inj heq ▸ h, fun h => h intervalS rfl⟩
  | .elapse _ | .insertReceivedOffer _ | .setReceivedOfferPaid _ _ => isTrue fun _ heq => (by cases heq)

theorem life_step {s s' : Clocked} {a : OfferAct} (hs : OfferIds s.db) (ha : Punctual s a) (h : offerStep a s = some s')
    {r : ReceivedOfferRow} (hr : HasOffer r s.db) :
    (¬ DueIn [(s, a)] r ∧ HasOffer r s'.db) ∨ (DueIn [(s, a)] r ∧ LostOffer r s'.db) := by
  -- whether the offer is paid does not matter to the deletion
  have hdeletes : ∀ intervalS, a = .deleteExpiredReceivedOffers intervalS →
      (deletesOffer s.now intervalS r = true ↔ Due s.now intervalS r) := by
    intro intervalS heq
    obtain ⟨paid, hrow⟩ := hr
    have hclear := ha intervalS heq _ hrow
    exact deletesOffer_iff_due.2 hclear
  by_cases hdue : DueIn [(s, a)] r
  · obtain ⟨t, intervalS, hmem, hdue'⟩ := hdue
    cases List.mem_singleton.1 hmem
    cases h
    exact .inr ⟨⟨s, intervalS, List.mem_cons_self, hdue'⟩, hr.delete hs ((hdeletes intervalS rfl).2 hdue')⟩
  · refine .inl ⟨hdue, hr.step h fun intervalS heq => ?_⟩
    rw [← Bool.not_eq_true, hdeletes intervalS heq]
    intro hdue'
    exact hdue ⟨s, intervalS, by rw [heq]; exact List.mem_cons_self, hdue'⟩

theorem dueIn_append {history : List (Clocked × OfferAct)} {x : Clocked × OfferAct} {r : ReceivedOfferRow} :
    DueIn (history ++ [x]) r ↔ DueIn history r ∨ DueIn [x] r := by
  constructor
  · rintro ⟨s, intervalS, hmem, hdue⟩
    rcases List.mem_append.1 hmem with hmem | hmem
    · exact .inl ⟨s, intervalS, hmem, hdue⟩
    · exact .inr ⟨s, intervalS, hmem, hdue⟩
  · rintro (⟨s, intervalS, hmem, hdue⟩ | ⟨s, intervalS, hmem, hdue⟩)
    · exact ⟨s, intervalS, List.mem_append_left _ hmem, hdue⟩
    · exact ⟨s, intervalS, List.mem_append_right _ hmem, hdue⟩

theorem life_of_run {s₀ s : Clocked} {history : List (Clocked × OfferAct)}
    (hr : Machine.Run offerStep s₀ history s) (hs₀ : OfferIds s₀.db) (hpunctual : ∀ x ∈ history, Punctual x.1 x.2)
    {r : ReceivedOfferRow} (h₀ : HasOffer r s₀.db) :
    OfferIds s.db ∧ ((¬ DueIn history r ∧ HasOffer r s.db) ∨ (DueIn history r ∧ LostOffer r s.db)) := by
  induction hr with
  | init => exact ⟨hs₀, .inl ⟨fun ⟨_, _, hmem, _⟩ => (by cases hmem), h₀⟩⟩
  | @next history s s' a hr ha ih =>
    obtain ⟨hids, hlife⟩ := ih fun x hx => hpunctual x (List.mem_append_left _ hx)
    refine ⟨offerIds_step ha hids, ?_⟩
    rw [dueIn_append]
    rcases hlife with ⟨hnot, hhas⟩ | ⟨hdue, hlost⟩
    · rcases life_step hids (hpunctual _ (List.mem_append_right _ List.mem_cons_self)) ha hhas with h | h
      · exact .inl ⟨fun hor => hor.elim hnot h.1, h.2⟩
      · exact .inr ⟨.inr h.1, h.2⟩
    · exact .inr ⟨.inl hdue, hlost.step ha⟩

theorem offerIds_of_run {s₀ s : Clocked} {history : List (Clocked × OfferAct)}
    (hr : Machine.Run offerStep s₀ history s) (hs₀ : OfferIds s₀.db) : OfferIds s.db := by
  have hids := hr.invariant (I := fun s => OfferIds s.db) (C := fun _ _ => True)
    (fun _ _ _ hs _ ha => offerIds_step ha hs) hs₀ fun _ _ => trivial
  exact hids s (List.mem_append_right _ List.mem_cons_self)

end SqueakDb

open SqueakDb

/-- A run retains its offers to the millisecond if and only if none of its deletion runs comes close
to the end of the retention of an offer whose invoice has not expired. -/
theorem retention_exact_iff {s₀ s : Clocked} (hs₀ : OfferIds s₀.db) {history : List (Clocked × OfferAct)}
    (hr : Machine.Run offerStep s₀ history s) :
    RetainsExactly history s ↔ ∀ x ∈ history, Punctual x.1 x.2 := by
  constructor
  · rintro h ⟨t, a⟩ hx intervalS rfl
    exact (deletesDue_iff _ _ _).1 (h.deletes t intervalS hx)
  · intro h
    refine ⟨fun t intervalS hmem => ?_, fun before t receivedOffer after id hsplit hid => ?_⟩
    · exact (deletesDue_iff _ _ _).2 (h _ hmem intervalS rfl)
    · obtain ⟨hbefore, t', ht', hafter⟩ := hr.rest hsplit
      cases ht'
      have hids := offerIds_step (a := .insertReceivedOffer receivedOffer) rfl (offerIds_of_run hbefore hs₀)
      have hpunctual : ∀ x ∈ after, Punctual x.1 x.2 := fun x hx =>
        h x (hsplit ▸ List.mem_append_right _ (List.mem_cons_of_mem _ hx))
      obtain ⟨host, haddress, hhas⟩ := hasOffer_insert t.now receivedOffer hid
      exact ⟨host, haddress, (life_of_run hafter hids hpunctual hhas).2⟩

namespace Sample

/-- 999 milliseconds after a full second. -/
def clocked : Clocked := ⟨1000999, .empty⟩

/-- An offer is inserted and paid, and the offers are deleted a minute later, but for `early` milliseconds. -/
def minute (early : Nat) : List OfferAct :=
  [.insertReceivedOffer (parseReceivedOffer (offerRow [])), .setReceivedOfferPaid (0 :: scalarToBytes 7) true,
    .elapse (60000 - early), .deleteExpiredReceivedOffers 60]

end Sample

/-- A second early the offer stays. -/
theorem retention_exact_minute : ∃ history s, Machine.Run offerStep Sample.clocked history s ∧
    history.map Prod.snd = Sample.minute 1000 ∧ RetainsExactly history s := by
  obtain ⟨⟨history, s⟩, hexec⟩ := Option.isSome_iff_exists.1
    (by decide +kernel : (Machine.exec offerStep (Sample.minute 1000) Sample.clocked).isSome = true)
  have hpunctual : (Machine.exec offerStep (Sample.minute 1000) Sample.clocked).all
      (fun r => r.1.all fun x => decide (Punctual x.1 x.2)) = true := by decide +kernel
  rw [hexec] at hpunctual
  have hids : OfferIds Sample.clocked.db := ⟨List.nodup_nil, fun r hr => (by cases hr), fun r hr => (by cases hr)⟩
  have hrun := Machine.run_exec hexec
  refine ⟨history, s, hrun, Machine.actions_exec hexec, (retention_exact_iff hids hrun).2 fun x hx => ?_⟩
  exact of_decide_eq_true (List.all_eq_true.1 hpunctual x hx)

/-- 999 milliseconds early the offer is deleted, although no deletion run is due for it. -/
theorem retention_early : ∃ history s, Machine.Run offerStep Sample.clocked history s ∧
    history.map Prod.snd = Sample.minute 999 ∧ ¬ RetainsExactly history s := by
  have hinit : Machine.Run offerStep Sample.clocked [] Sample.clocked := .init
  have hrun := ((hinit.next (a := .insertReceivedOffer (parseReceivedOffer (Sample.offerRow []))) rfl).next
    (a := .setReceivedOfferPaid (0 :: Sample.scalarToBytes 7) true) rfl).next (a := .elapse 59001) rfl
  refine ⟨_, _, hrun.next (a := .deleteExpiredReceivedOffers 60) rfl, rfl, fun h => ?_⟩
  have hdeletes := h.deletes _ 60 (List.mem_append_right _ (List.mem_singleton_self _))
  -- the offer was kept for 59001 milliseconds
  have hdue : ¬ Due 1060000 60 { receivedOfferRow 1000999 (parseReceivedOffer (Sample.offerRow [])) "lnd" 1 with
    paid := true } := by
    decide
  have hkept := (hdeletes.offers _).2 ⟨List.mem_singleton_self _, hdue⟩
  exact absurd hkept (by decide +kernel)

end Squeaknode
