import Labs.Base.Ledger
import Labs.Base.Prog

/-!
# The transfer service

`zoobar/xfer.py` and the method `rpc_transfer` of `svc-xfer.py`. The service keeps the table of
balances. The object mapper is a parameter: what the service relies on is that a session holds one
object for each key, so that the sender's object and the recipient's are the same object when the
two names are equal, and that a commit writes what was assigned.
-/

namespace Labs.Zoo.Xfer

open Prog

/-- The table `zoobars` of `zoodb.py`: its keys and the balance in each row. -/
structure Db (Username : Type) where
  accounts : Finset Username
  zoobars : Username → Int

/-- A row of the table `transfer`. -/
structure Transfer (Username : Type) where
  sender : Username
  recipient : Username
  amount : Int

/-- What the service uses of the object mapper: a session on the table, the object that
`query(Zoobars).get` finds, the attribute `zoobars` of an object, and the table after `commit`. -/
structure Mapper (Username Obj Session : Type) where
  setup : Db Username → Session
  get : Session → Username → Option Obj × Session
  zoobars : Session → Obj → Int
  setZoobars : Session → Obj → Int → Session
  commit : Session → Db Username

/-- What the service relies on. `rows` is the table as a session sees it. A session has one object
for each key, so that an object is read and assigned under its key, and `commit` writes all that was
assigned. -/
structure Mapper.Laws {Username Obj Session : Type} [DecidableEq Username]
    (mapper : Mapper Username Obj Session) (key : Obj → Username) (rows : Session → Db Username) :
    Prop where
  setup : ∀ db, rows (mapper.setup db) = db
  loads : ∀ s username, rows (mapper.get s username).2 = rows s
  missing : ∀ s username, username ∉ (rows s).accounts → (mapper.get s username).1 = none
  found : ∀ s username, username ∈ (rows s).accounts →
    ∃ person, (mapper.get s username).1 = some person ∧ key person = username
  zoobars : ∀ s person, mapper.zoobars s person = (rows s).zoobars (key person)
  setZoobars : ∀ s person zoobars, rows (mapper.setZoobars s person zoobars) =
    { rows s with zoobars := Function.update (rows s).zoobars (key person) zoobars }
  commit : ∀ s, mapper.commit s = rows s

/-- The databases, and the session of the call that is running. -/
structure State (Username Session : Type) where
  db : Db Username
  session : Session
  log : List (Transfer Username)

/-- The exceptions of the service. -/
inductive Exception where
  | valueError
  deriving DecidableEq, Repr

section Service

variable {Username Obj Session : Type} (mapper : Mapper Username Obj Session)

/-- Start a session on the table. -/
def zoobarsSetup : Prog (State Username Session) Exception Unit :=
  modify fun s => { s with session := mapper.setup s.db }

/-- `query(Zoobars).get(username)`. -/
def get (username : Username) : Prog (State Username Session) Exception (Option Obj) := do
  let s ← Prog.get
  modify fun s => { s with session := (mapper.get s.session username).2 }
  return (mapper.get s.session username).1

/-- Read the attribute `zoobars` of an object. -/
def zoobarsOf (person : Obj) : Prog (State Username Session) Exception Int :=
  gets fun s => mapper.zoobars s.session person

/-- Assign the attribute `zoobars` of an object. -/
def setZoobars (person : Obj) (zoobars : Int) : Prog (State Username Session) Exception Unit :=
  modify fun s => { s with session := mapper.setZoobars s.session person zoobars }

/-- Write the objects of the session back to their rows. -/
def commit : Prog (State Username Session) Exception Unit :=
  modify fun s => { s with db := mapper.commit s.session }

/-- The log service appends a row. -/
def addLog (sender recipient : Username) (zoobars : Int) :
    Prog (State Username Session) Exception Unit :=
  modify fun s => { s with log := s.log ++ [⟨sender, recipient, zoobars⟩] }

/-- The function `transfer` of `xfer.py`. -/
def transfer (sender recipient : Username) (zoobars : Int) :
    Prog (State Username Session) Exception (Option Bool) := do
  zoobarsSetup mapper
  let senderp ← get mapper sender
  let recipientp ← get mapper recipient
  match senderp, recipientp with
  | some senderp, some recipientp => do
      let senderBalance := (← zoobarsOf mapper senderp) - zoobars
      let recipientBalance := (← zoobarsOf mapper recipientp) + zoobars
      if senderBalance < 0 ∨ recipientBalance < 0 then
        exit .valueError
      else do
        setZoobars mapper senderp senderBalance
        setZoobars mapper recipientp recipientBalance
        commit mapper
        addLog sender recipient zoobars
        return some true
  | _, _ => return none

/-- The arguments of a transfer request. -/
structure Call (Username : Type) where
  sender : Username
  recipient : Username
  zoobars : Int

/-- `rpc_transfer`. The state stays when the call ends in an exception, which ends the process
that serves the connection. -/
def rpcTransfer (s : State Username Session) (call : Call Username) : State Username Session :=
  (transfer mapper call.sender call.recipient call.zoobars s).state

/-- Serve one call after another. -/
def serve (s : State Username Session) (calls : List (Call Username)) : State Username Session :=
  calls.foldl (rpcTransfer mapper) s

end Service

variable {Username : Type} [DecidableEq Username]

/-- The service moves the amount of this call: both accounts exist and neither balance would
become negative. -/
def Accepts (db : Db Username) (call : Call Username) : Prop :=
  call.sender ∈ db.accounts ∧ call.recipient ∈ db.accounts ∧
    0 ≤ db.zoobars call.sender - call.zoobars ∧ 0 ≤ db.zoobars call.recipient + call.zoobars

instance (db : Db Username) (call : Call Username) : Decidable (Accepts db call) := by
  unfold Accepts
  infer_instance

/-- What a call does to the balances: move the amount, or nothing. -/
def settle (db : Db Username) (call : Call Username) : Username → Int :=
  if Accepts db call then
    Ledger.move db.zoobars call.sender call.recipient call.zoobars
  else
    db.zoobars

variable {Obj Session : Type} {mapper : Mapper Username Obj Session} {key : Obj → Username}
  {rows : Session → Db Username}

/-- `get` finds the object of a key that has a row, and of no other key. -/
theorem wp_get_object (hlaws : mapper.Laws key rows) {username : Username}
    {Q : Option Obj → State Username Session → Prop} {E : Exception → State Username Session → Prop}
    {s : State Username Session}
    (hfound : username ∈ (rows s.session).accounts → ∀ person session, key person = username →
      rows session = rows s.session → Q (some person) { s with session := session })
    (hmissing : username ∉ (rows s.session).accounts → ∀ session, rows session = rows s.session →
      Q none { s with session := session }) :
    wp (get mapper username) Q E s := by
  unfold get
  rw [wp_bind, wp_get, wp_bind, wp_modify, wp_pure]
  by_cases h : username ∈ (rows s.session).accounts
  · obtain ⟨person, hget, hkey⟩ := hlaws.found s.session username h
    rw [hget]
    exact hfound h person _ hkey (hlaws.loads _ _)
  · rw [hlaws.missing s.session username h]
    exact hmissing h _ (hlaws.loads _ _)

/-- A call that the service does not accept leaves the database alone, and an accepted one moves
the amount from the sender to the recipient. -/
theorem transfer_spec (hlaws : mapper.Laws key rows) (s : State Username Session)
    (call : Call Username) :
    (rpcTransfer mapper s call).db = { s.db with zoobars := settle s.db call } := by
  refine @state_of_wp _ _ _ s (transfer mapper call.sender call.recipient call.zoobars)
    (fun t => t.db = { s.db with zoobars := settle s.db call }) ?_
  have hrefused : ¬ Accepts s.db call → s.db = { s.db with zoobars := settle s.db call } := by
    intro hnot
    rw [settle, if_neg hnot]
  unfold transfer
  rw [wp_bind, zoobarsSetup, wp_modify, wp_bind]
  refine wp_get_object hlaws (fun hsender senderp session hkey hrows => ?_)
    fun hsender session hrows => ?_
  · rw [wp_bind]
    refine wp_get_object hlaws (fun hrecipient recipientp session' hkey' hrows' => ?_)
      fun hrecipient session' hrows' => ?_
    · rw [hlaws.setup] at hsender hrows
      rw [hrows] at hrecipient hrows'
      simp only [wp_bind, zoobarsOf, wp_gets, wp_ite, wp_exit, setZoobars, commit, addLog, wp_modify,
        wp_pure, hlaws.zoobars, hrows', hkey, hkey']
      have haccepts : Accepts s.db call ↔ 0 ≤ s.db.zoobars call.sender - call.zoobars ∧
          0 ≤ s.db.zoobars call.recipient + call.zoobars := by
        simp only [Accepts, hsender, hrecipient, true_and]
      constructor
      · intro hneg
        exact hrefused (by rw [haccepts]; omega)
      · intro hok
        rw [settle, if_pos (by rw [haccepts]; omega), hlaws.commit, hlaws.setZoobars,
          hlaws.setZoobars, hrows', hkey, hkey', Ledger.move]
    · exact hrefused fun haccepts => hrecipient (by
        rw [hrows, hlaws.setup]
        exact haccepts.2.1)
  · have hnot : ¬ Accepts s.db call := fun haccepts => hsender (by
      rw [hlaws.setup]
      exact haccepts.1)
    rw [wp_bind]
    exact wp_get_object hlaws (fun _ _ _ _ _ => hrefused hnot) fun _ _ _ => hrefused hnot

/-- The law of a call: it changes no balance, or it conserves the total, takes no balance below
zero and lowers no account other than the sender's. -/
def Lawful (db db' : Db Username) (sender : Username) : Prop :=
  (∀ u ∈ db.accounts, db'.zoobars u = db.zoobars u) ∨
    (∑ u ∈ db.accounts, db'.zoobars u = ∑ u ∈ db.accounts, db.zoobars u ∧
      (∀ u ∈ db.accounts, 0 ≤ db.zoobars u → 0 ≤ db'.zoobars u) ∧
      ∀ u ∈ db.accounts, u ≠ sender → db.zoobars u ≤ db'.zoobars u)

/-- The checks of the web form: the amount is not negative, and nobody pays himself. A call that
moves nothing, or that the service refuses, needs neither. -/
def Fair (db : Db Username) (call : Call Username) : Prop :=
  ¬ Accepts db call ∨ call.zoobars = 0 ∨ (0 < call.zoobars ∧ call.sender ≠ call.recipient)

section Law

variable {db : Db Username} {sender recipient : Username} {amount : Int}

/-- Paying a positive amount to somebody else is lawful, if neither balance becomes negative. -/
theorem lawful_of_pay (hsender : sender ∈ db.accounts) (hrecipient : recipient ∈ db.accounts)
    (hne : sender ≠ recipient) (hpos : 0 < amount) (hpayer : 0 ≤ db.zoobars sender - amount)
    (hpayee : 0 ≤ db.zoobars recipient + amount) :
    Lawful db { db with zoobars := Ledger.move db.zoobars sender recipient amount } sender := by
  right
  refine ⟨Ledger.sum_move hsender hrecipient hne, ?_, ?_⟩
  · intro u _ hu
    show 0 ≤ Ledger.move db.zoobars sender recipient amount u
    by_cases hpayee' : u = recipient
    · rw [hpayee', Ledger.move_payee]
      exact hpayee
    · by_cases hpayer' : u = sender
      · rw [hpayer', Ledger.move_payer hne]
        exact hpayer
      · rw [Ledger.move_of_ne hpayer' hpayee']
        exact hu
  · intro u _ hother
    show db.zoobars u ≤ Ledger.move db.zoobars sender recipient amount u
    by_cases hpayee' : u = recipient
    · rw [hpayee', Ledger.move_payee]
      omega
    · rw [Ledger.move_of_ne hother hpayee']

/-- Paying oneself creates zoobars. -/
theorem not_lawful_self (hsender : sender ∈ db.accounts) (hne : amount ≠ 0) :
    ¬ Lawful db { db with zoobars := Ledger.move db.zoobars sender sender amount } sender := by
  intro hlaw
  apply hne
  rcases hlaw with hsame | ⟨hsum, _, _⟩
  · have hpaid : Ledger.move db.zoobars sender sender amount sender = db.zoobars sender :=
      hsame sender hsender
    rw [Ledger.move_payee] at hpaid
    omega
  · have htotal : ∑ u ∈ db.accounts, Ledger.move db.zoobars sender sender amount u =
        ∑ u ∈ db.accounts, db.zoobars u := hsum
    rw [Ledger.sum_move_self hsender] at htotal
    omega

/-- Paying a negative amount takes it from the recipient. -/
theorem not_lawful_negative (hrecipient : recipient ∈ db.accounts) (hne : sender ≠ recipient)
    (hneg : amount < 0) :
    ¬ Lawful db { db with zoobars := Ledger.move db.zoobars sender recipient amount } sender := by
  intro hlaw
  have hlowered : db.zoobars recipient ≤
      Ledger.move db.zoobars sender recipient amount recipient := by
    rcases hlaw with hsame | ⟨_, _, hlower⟩
    · exact le_of_eq (hsame recipient hrecipient).symm
    · exact hlower recipient hrecipient hne.symm
  rw [Ledger.move_payee] at hlowered
  omega

end Law

/-- A call obeys the law exactly when it is fair. -/
theorem lawful_iff (hlaws : mapper.Laws key rows) (s : State Username Session)
    (call : Call Username) :
    Lawful s.db (rpcTransfer mapper s call).db call.sender ↔ Fair s.db call := by
  rw [transfer_spec hlaws]
  by_cases haccepts : Accepts s.db call
  · rw [settle, if_pos haccepts, Fair]
    obtain ⟨hsender, hrecipient, hpayer, hpayee⟩ := id haccepts
    by_cases hzero : call.zoobars = 0
    · rw [hzero, Ledger.move_zero]
      simp [Lawful]
    · by_cases hsame : call.sender = call.recipient
      · have hlaw := not_lawful_self hsender hzero
        rw [← hsame]
        simp [hlaw, haccepts, hzero]
      · by_cases hpos : 0 < call.zoobars
        · have hlaw := lawful_of_pay hsender hrecipient hsame hpos hpayer hpayee
          simp [hlaw, hpos, hsame]
        · have hneg : call.zoobars < 0 := by omega
          have hlaw := not_lawful_negative hrecipient hsame hneg
          simp [hlaw, haccepts, hzero, hpos]
  · rw [settle, if_neg haccepts]
    simp [Lawful, Fair, haccepts]

omit [DecidableEq Username] in
theorem serve_append (mapper : Mapper Username Obj Session) (s : State Username Session)
    (calls calls' : List (Call Username)) :
    serve mapper s (calls ++ calls') = serve mapper (serve mapper s calls) calls' :=
  List.foldl_append

/-- In every sequence of calls, all of them obey the law exactly when all of them are fair. -/
theorem transfers_lawful_iff (hlaws : mapper.Laws key rows) (s : State Username Session)
    (calls : List (Call Username)) :
    (∀ before call after, calls = before ++ call :: after →
      Lawful (serve mapper s before).db (serve mapper s (before ++ [call])).db call.sender) ↔
    ∀ before call after, calls = before ++ call :: after →
      Fair (serve mapper s before).db call := by
  have hcall : ∀ before (call : Call Username),
      Lawful (serve mapper s before).db (serve mapper s (before ++ [call])).db call.sender ↔
        Fair (serve mapper s before).db call := by
    intro before call
    rw [serve_append]
    exact lawful_iff hlaws (serve mapper s before) call
  constructor
  · intro hlaw before call after hsplit
    exact (hcall before call).1 (hlaw before call after hsplit)
  · intro hfair before call after hsplit
    exact (hcall before call).2 (hfair before call after hsplit)

/-- A mapper whose sessions hold, beside the table, the attribute of each object that was loaded. An
object is its key. -/
def identityMap : Mapper Username Username (Db Username × (Username → Option Int)) where
  setup db := (db, fun _ => none)
  get s username :=
    if username ∈ s.1.accounts then
      (some username,
        (s.1, Function.update s.2 username (some ((s.2 username).getD (s.1.zoobars username)))))
    else (none, s)
  zoobars s person := (s.2 person).getD (s.1.zoobars person)
  setZoobars s person zoobars := (s.1, Function.update s.2 person (some zoobars))
  commit s := { s.1 with zoobars := fun person => (s.2 person).getD (s.1.zoobars person) }

theorem identity_map_laws : (identityMap : Mapper Username Username _).Laws id
    fun s => { s.1 with zoobars := fun person => (s.2 person).getD (s.1.zoobars person) } where
  setup _ := rfl
  loads s username := by
    unfold identityMap
    dsimp only
    split
    · refine congrArg (Db.mk s.1.accounts) (funext fun person => ?_)
      by_cases h : person = username
      · subst h
        simp
      · simp [h]
    · rfl
  missing s username h := by
    show (if username ∈ s.1.accounts then _ else _ : Option Username × _).1 = none
    rw [if_neg h]
  found s username h := by
    refine ⟨username, ?_, rfl⟩
    show (if username ∈ s.1.accounts then _ else _ : Option Username × _).1 = some username
    rw [if_pos h]
  zoobars _ _ := rfl
  setZoobars s person zoobars := by
    refine congrArg (Db.mk s.1.accounts) (funext fun other => ?_)
    by_cases h : other = person
    · subst h
      simp [identityMap]
    · simp [identityMap, h]
  commit _ := rfl

/-- The service starts with ten zoobars on one account, and none on another. -/
def twoAccounts : State String (Db String × (String → Option Int)) where
  db := ⟨{"alice", "bob"}, fun person => if person = "alice" then 10 else 0⟩
  session := (⟨∅, fun _ => 0⟩, fun _ => none)
  log := []

/-- A payment of four is lawful. The law is broken when the payer then pays herself five. -/
theorem transfers_lawful_iff_then_self :
    (∀ before call after, [⟨"alice", "bob", 4⟩] = before ++ call :: after →
      Lawful (serve identityMap twoAccounts before).db
        (serve identityMap twoAccounts (before ++ [call])).db call.sender) ∧
    ¬ ∀ before call after, [⟨"alice", "bob", 4⟩, ⟨"alice", "alice", 5⟩] = before ++ call :: after →
      Lawful (serve identityMap twoAccounts before).db
        (serve identityMap twoAccounts (before ++ [call])).db call.sender := by
  constructor
  · refine (transfers_lawful_iff identity_map_laws twoAccounts _).2 fun before call after hsplit => ?_
    obtain ⟨rfl, rfl, rfl⟩ : before = [] ∧ call = ⟨"alice", "bob", 4⟩ ∧ after = [] := by
      cases before with
      | nil => exact ⟨rfl, (List.cons.inj hsplit).1.symm, (List.cons.inj hsplit).2.symm⟩
      | cons first rest => exact absurd (congrArg List.length hsplit) (by simp)
    exact .inr (.inr ⟨by decide, by decide⟩)
  · intro hlaw
    have hfair := (transfers_lawful_iff identity_map_laws twoAccounts _).1 hlaw
      [⟨"alice", "bob", 4⟩] ⟨"alice", "alice", 5⟩ [] rfl
    rcases hfair with hrefused | hzero | hpay
    · exact hrefused (by decide +kernel)
    · exact absurd hzero (by decide)
    · exact hpay.2 rfl

/-- A user with ten zoobars who pays herself five owns fifteen. -/
theorem transfer_to_self_creates :
    ¬ ∀ (s : State String (Db String × (String → Option Int))) (calls before : List (Call String))
      (call : Call String) (after : List (Call String)), calls = before ++ call :: after →
      Lawful (serve identityMap s before).db (serve identityMap s (before ++ [call])).db
        call.sender := by
  intro hlaw
  have hfair := (lawful_iff identity_map_laws twoAccounts ⟨"alice", "alice", 5⟩).1
    (hlaw twoAccounts [⟨"alice", "alice", 5⟩] [] ⟨"alice", "alice", 5⟩ [] rfl)
  rcases hfair with hrefused | hzero | hpay
  · exact hrefused (by decide +kernel)
  · exact absurd hzero (by decide)
  · exact hpay.2 rfl

/-- The total of all balances, which a run of fair calls conserves. -/
theorem serve_total (hlaws : mapper.Laws key rows) {s : State Username Session}
    {calls : List (Call Username)} (hfair : ∀ before call after, calls = before ++ call :: after →
      Fair (serve mapper s before).db call) :
    (serve mapper s calls).db.accounts = s.db.accounts ∧
    ∑ u ∈ s.db.accounts, (serve mapper s calls).db.zoobars u =
      ∑ u ∈ s.db.accounts, s.db.zoobars u := by
  induction calls using List.reverseRecOn with
  | nil => exact ⟨rfl, rfl⟩
  | append_singleton calls call ih =>
      obtain ⟨haccounts, hsum⟩ := ih fun before call' after hsplit =>
        hfair before call' (after ++ [call]) (by rw [hsplit]; simp)
      have hstep := transfer_spec hlaws (serve mapper s calls) call
      have hlaw := (lawful_iff hlaws (serve mapper s calls) call).2 (hfair calls call [] rfl)
      rw [serve_append]
      show (rpcTransfer mapper (serve mapper s calls) call).db.accounts = _ ∧
        ∑ u ∈ _, (rpcTransfer mapper (serve mapper s calls) call).db.zoobars u = _
      constructor
      · rw [hstep]
        exact haccounts
      · rw [← hsum, ← haccounts]
        rcases hlaw with hsame | ⟨htotal, _, _⟩
        · exact Finset.sum_congr rfl hsame
        · exact htotal

end Labs.Zoo.Xfer
