import Mathlib.Data.List.Basic

/-!
# The RabbitMQ publisher

A `Publisher` opens a channel, makes sure that the exchange and the queue of its options exist, and
then publishes values. Three variables are called `options`: the parameter of the constructor, a
member of the base class, which is initialised with it, and a member of `Publisher`, which is not.
The channel is the log of the calls made on it; its answers to the two checks are parameters.
`publishAll_log` lists what a sequence of `publish` calls adds to the log.
-/

set_option autoImplicit false

namespace PipelineTools.Ipc

/-- `struct RMQOptions`. -/
structure RMQOptions where
  uri : String := ""
  username : String := ""
  password : String := ""
  exchangeName : String := ""
  /-- `EXCHANGE_TYPE_DIRECT` by default. -/
  exchangeType : String := "direct"
  exchangePassive : Bool := false
  exchangeDurable : Bool := false
  exchangeAutoDelete : Bool := false
  queueName : String := ""
  queuePassive : Bool := false
  queueDurable : Bool := false
  queueExclusive : Bool := false
  queueAutoDelete : Bool := false
  deriving DecidableEq

/-- A message: its content type, if one is set, and its body. -/
structure Message where
  contentType : Option String := none
  body : String
  deriving DecidableEq

/-- The calls on a channel. -/
inductive ChannelCall where
  | openChannel (uri username password : String)
  | checkExchangeExists (name : String)
  | declareExchange (name type : String) (passive durable autoDelete : Bool)
  | checkQueueExists (name : String)
  | declareQueue (name : String) (passive durable exclusive autoDelete : Bool)
  | basicPublish (exchange routingKey : String) (message : Message) (mandatory immediate : Bool)
  deriving DecidableEq

/-- The answer to a check of the channel. A check that throws counts as `false`. -/
inductive CheckAnswer where
  | answered (found : Bool)
  | threw
  deriving DecidableEq

/-- `try { … = channel->Check…(…); } catch(std::exception) { … = false; }` -/
def CheckAnswer.exists : CheckAnswer → Bool
  | answered found => found
  | threw => false

/-- The concept `RMQSerialized<T>`, by the alternative that `T` satisfies. -/
inductive RMQSerialized (Json : Type) : Type → Type 1 where
  | jsonSerialized {T : Type} (serialize : T → Json) : RMQSerialized Json T
  | stringSerialized {T : Type} (serialize : T → String) : RMQSerialized Json T
  | json : RMQSerialized Json Json
  | string : RMQSerialized Json String

/-- The message for a value; `dump` is that of the JSON library. -/
def RMQSerialized.message {Json : Type} (dump : Json → String) :
    {T : Type} → RMQSerialized Json T → T → Message
  | _, .jsonSerialized serialize, value => ⟨some "application/json", dump (serialize value)⟩
  | _, .stringSerialized serialize, value => ⟨none, serialize value⟩
  | _, .json, value => ⟨some "application/json", dump value⟩
  | _, .string, value => ⟨none, value⟩

/-- The base class: its private member `options`, and the log of its channel. -/
structure MQEntity where
  options : RMQOptions
  log : List ChannelCall

/-- The base class after its channel has been opened. -/
def MQEntity.opened (options : RMQOptions) : MQEntity where
  options := options
  log := [.openChannel options.uri options.username options.password]

/-- The constructor of the base class; `failure` is what the exception of `Channel::Open` says, if
it throws one. -/
def MQEntity.make (options : RMQOptions) (failure : Option String) : Except String MQEntity :=
  match failure with
  | some what => .error ("Error in channel initialization: " ++ what)
  | none => .ok (.opened options)

/-- A call on the channel. -/
def MQEntity.call (entity : MQEntity) (c : ChannelCall) : MQEntity :=
  { entity with log := entity.log ++ [c] }

/-- The members of `Publisher`. -/
structure Publisher extends MQEntity where
  ownOptions : RMQOptions
  routingKey : String

namespace Publisher

/-- The calls by which the constructor makes sure that the exchange exists. -/
def ensureExchange (options : RMQOptions) (answer : CheckAnswer) (entity : MQEntity) : MQEntity :=
  let entity := entity.call (.checkExchangeExists options.exchangeName)
  if answer.exists then entity
  else
    entity.call (.declareExchange options.exchangeName options.exchangeType
      options.exchangePassive options.exchangeDurable options.exchangeAutoDelete)

/-- The calls by which the constructor makes sure that the queue exists. -/
def ensureQueue (options : RMQOptions) (answer : CheckAnswer) (entity : MQEntity) : MQEntity :=
  let entity := entity.call (.checkQueueExists options.queueName)
  if answer.exists then entity
  else
    entity.call (.declareQueue options.queueName options.queuePassive options.queueDurable
      options.queueExclusive options.queueAutoDelete)

/-- The body of the constructor. The member `options` of `Publisher` is not in the list of
initialisers, so it is what `RMQOptions` is by default. -/
def ofEntity (entity : MQEntity) (options : RMQOptions) (routingKey : String)
    (exchangeAnswer queueAnswer : CheckAnswer) : Publisher where
  toMQEntity := ensureQueue options queueAnswer (ensureExchange options exchangeAnswer entity)
  ownOptions := {}
  routingKey := if routingKey = "" then options.queueName else routingKey

/-- The constructor. -/
def make (options : RMQOptions) (routingKey : String) (failure : Option String)
    (exchangeAnswer queueAnswer : CheckAnswer) : Except String Publisher :=
  (MQEntity.make options failure).map fun entity =>
    ofEntity entity options routingKey exchangeAnswer queueAnswer

/-- `Publisher(options, routing_key)` on a channel that can be opened. -/
def opened (options : RMQOptions) (routingKey : String) (exchangeAnswer queueAnswer : CheckAnswer) :
    Publisher :=
  ofEntity (MQEntity.opened options) options routingKey exchangeAnswer queueAnswer

theorem make_of_opened (options : RMQOptions) (routingKey : String)
    (exchangeAnswer queueAnswer : CheckAnswer) :
    make options routingKey none exchangeAnswer queueAnswer =
      .ok (opened options routingKey exchangeAnswer queueAnswer) := rfl

end Publisher

/-- The arguments of a call of `publish`. -/
structure Publication (T : Type) where
  value : T
  mandatory : Bool := false
  immediate : Bool := false

section Publish

variable {Json T : Type} (dump : Json → String) (serialized : RMQSerialized Json T)

/-- The call by which `publish` hands a value to the channel. -/
def Publisher.sent (p : Publisher) (x : Publication T) : ChannelCall :=
  .basicPublish p.ownOptions.exchangeName p.routingKey (serialized.message dump x.value)
    x.mandatory x.immediate

/-- The text of the exception of `publish`, when that of the channel says `what`. -/
def Publisher.publishError (p : Publisher) (what : String) : String :=
  "Producer failed to publish on exchange " ++ p.ownOptions.exchangeName ++ " with routing key " ++
    p.routingKey ++ " with the following error message " ++ what

/-- `Publisher::publish`; `failure` is what the exception of the channel says, if it throws one. -/
def Publisher.publish (p : Publisher) (x : Publication T) (failure : Option String) :
    Except String Unit × Publisher :=
  (match failure with
    | some what => .error (p.publishError what)
    | none => .ok (),
    { p with toMQEntity := p.toMQEntity.call (p.sent dump serialized x) })

/-- A sequence of calls of `publish` on a channel whose calls succeed. -/
def Publisher.publishAll (p : Publisher) (xs : List (Publication T)) : Publisher :=
  xs.foldl (fun p x => (p.publish dump serialized x none).2) p

/-- One call of `publish` makes one call on the channel, and changes nothing else, whether the
channel throws or not. -/
theorem Publisher.publish_spec (p : Publisher) (x : Publication T) (failure : Option String) :
    (p.publish dump serialized x failure).2.log = p.log ++ [p.sent dump serialized x] ∧
      (p.publish dump serialized x failure).2.ownOptions = p.ownOptions ∧
      (p.publish dump serialized x failure).2.routingKey = p.routingKey :=
  ⟨rfl, rfl, rfl⟩

/-- The values go to the channel in the order of the calls. -/
theorem Publisher.publishAll_log (p : Publisher) (xs : List (Publication T)) :
    (p.publishAll dump serialized xs).log = p.log ++ xs.map (p.sent dump serialized) := by
  induction xs generalizing p with
  | nil => exact (List.append_nil p.log).symm
  | cons x xs ih =>
    obtain ⟨hlog, hoptions, hkey⟩ := p.publish_spec dump serialized x none
    have hsent : (p.publish dump serialized x none).2.sent dump serialized =
        p.sent dump serialized := by
      funext y
      rw [sent, sent, hoptions, hkey]
    show (publishAll dump serialized (p.publish dump serialized x none).2 xs).log = _
    rw [ih, hsent, hlog, List.append_assoc, List.map_cons, List.singleton_append]

end Publish

/-! ## Addresses -/

/-- The call is one of `BasicPublish`. -/
def ChannelCall.isPublish : ChannelCall → Bool
  | basicPublish .. => true
  | _ => false

/-- The exchange that the call checks or declares. -/
def ChannelCall.ensuredExchange : ChannelCall → Option String
  | checkExchangeExists name => some name
  | declareExchange name .. => some name
  | _ => none

/-- What the calls of `publish` on `Publisher(o, r)` should hand to the channel. -/
def addressed {Json T : Type} (dump : Json → String) (serialized : RMQSerialized Json T)
    (o : RMQOptions) (r : String) (x : Publication T) : ChannelCall :=
  .basicPublish o.exchangeName (if r = "" then o.queueName else r)
    (serialized.message dump x.value) x.mandatory x.immediate

/-- The exchange is checked, and declared if it is missing; all checks and declarations are about
`o.exchangeName`, and all values go there, with their routing key and in order. -/
structure GoesToExchange {Json T : Type} (dump : Json → String) (serialized : RMQSerialized Json T)
    (o : RMQOptions) (r : String) (exchangeAnswer : CheckAnswer) (xs : List (Publication T))
    (log : List ChannelCall) : Prop where
  ensured : log.filterMap ChannelCall.ensuredExchange =
    if exchangeAnswer.exists then [o.exchangeName] else [o.exchangeName, o.exchangeName]
  published : log.filter ChannelCall.isPublish = xs.map (addressed dump serialized o r)

section Addressing

variable {Json T : Type} (dump : Json → String) (serialized : RMQSerialized Json T)
  (o : RMQOptions) (r : String) (exchangeAnswer queueAnswer : CheckAnswer)

/-- The log of a new publisher. -/
theorem log_opened :
    (Publisher.opened o r exchangeAnswer queueAnswer).log =
      [.openChannel o.uri o.username o.password, .checkExchangeExists o.exchangeName] ++
        (if exchangeAnswer.exists then []
          else [.declareExchange o.exchangeName o.exchangeType o.exchangePassive o.exchangeDurable
            o.exchangeAutoDelete]) ++
        .checkQueueExists o.queueName ::
          (if queueAnswer.exists then []
            else [.declareQueue o.queueName o.queuePassive o.queueDurable o.queueExclusive
              o.queueAutoDelete]) := by
  simp only [Publisher.opened, Publisher.ofEntity, Publisher.ensureQueue, Publisher.ensureExchange,
    MQEntity.opened, MQEntity.call]
  cases exchangeAnswer.exists <;> cases queueAnswer.exists <;> rfl

/-- The constructor publishes nothing. -/
theorem published_opened :
    (Publisher.opened o r exchangeAnswer queueAnswer).log.filter ChannelCall.isPublish = [] := by
  rw [log_opened]
  cases exchangeAnswer.exists <;> cases queueAnswer.exists <;> rfl

/-- The constructor checks the exchange of its parameter, and declares it if it is missing. -/
theorem ensured_opened :
    (Publisher.opened o r exchangeAnswer queueAnswer).log.filterMap ChannelCall.ensuredExchange =
      if exchangeAnswer.exists then [o.exchangeName] else [o.exchangeName, o.exchangeName] := by
  rw [log_opened]
  cases exchangeAnswer.exists <;> cases queueAnswer.exists <;> rfl

theorem published_sent (p : Publisher) (xs : List (Publication T)) :
    (xs.map (p.sent dump serialized)).filter ChannelCall.isPublish =
      xs.map (p.sent dump serialized) := by
  apply List.filter_eq_self.2
  intro c hc
  obtain ⟨x, -, rfl⟩ := List.mem_map.1 hc
  rfl

theorem ensured_sent (p : Publisher) (xs : List (Publication T)) :
    (xs.map (p.sent dump serialized)).filterMap ChannelCall.ensuredExchange = [] := by
  apply List.filterMap_eq_nil_iff.2
  intro c hc
  obtain ⟨x, -, rfl⟩ := List.mem_map.1 hc
  rfl

/-- What a new publisher sends has the right key and message, and goes to the exchange without a
name. -/
theorem sent_opened (x : Publication T) :
    (Publisher.opened o r exchangeAnswer queueAnswer).sent dump serialized x =
      .basicPublish "" (if r = "" then o.queueName else r) (serialized.message dump x.value)
        x.mandatory x.immediate := rfl

/-- All values go to the exchange of the options exactly when it is the one without a name, or there
are no values. -/
theorem goesToExchange_iff (xs : List (Publication T)) :
    GoesToExchange dump serialized o r exchangeAnswer xs
        ((Publisher.opened o r exchangeAnswer queueAnswer).publishAll dump serialized xs).log ↔
      o.exchangeName = "" ∨ xs = [] := by
  rw [Publisher.publishAll_log]
  constructor
  · rintro ⟨-, hpublished⟩
    rw [List.filter_append, published_opened, published_sent, List.nil_append] at hpublished
    cases xs with
    | nil => exact .inr rfl
    | cons x xs =>
      left
      have hhead := (List.cons.inj hpublished).1
      rw [sent_opened, addressed, ChannelCall.basicPublish.injEq] at hhead
      exact hhead.1.symm
  · intro h
    constructor
    · rw [List.filterMap_append, ensured_opened, ensured_sent, List.append_nil]
    · rw [List.filter_append, published_opened, published_sent, List.nil_append]
      rcases h with hname | rfl
      · apply List.map_congr_left
        intro x _
        rw [sent_opened, addressed, hname]
      · rfl

end Addressing

/-- Options with an exchange of their own. -/
def eventOptions : RMQOptions := { exchangeName := "events", queueName := "jobs" }

/-- A text that should go to the exchange `events` does not. -/
theorem not_goesToExchange_events :
    ¬GoesToExchange (Empty.elim : Empty → String) .string eventOptions "key" .threw
      [⟨"hello", false, false⟩]
      ((Publisher.opened eventOptions "key" .threw .threw).publishAll (Empty.elim : Empty → String)
        .string [⟨"hello", false, false⟩]).log := by
  rintro ⟨-, hpublished⟩
  revert hpublished
  decide

end PipelineTools.Ipc
