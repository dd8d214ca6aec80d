import FreeToken.Accounting.Frontend

/-!
# A tokenizer worker

`tokenize_worker`: each turn takes messages from its queue, regroups them by their type and answers
the frontend and the scheduler.  `Tokenizer` stands for the tokenizer of the model.
-/

set_option autoImplicit false

namespace FreeToken

/-- The tokens of a prompt, or the text of the exception. -/
abbrev Tokenizer := String → Except String (List TokenId)

/-- A worker with its queues: what the frontend and the scheduler sent it, what it has taken in this
turn, and what it sent to either of them. -/
structure Worker where
  fromFrontend : List RequestMsg := []
  fromScheduler : List GenerationMsg := []
  pendingMsg : List TokenizerMsg := []
  toFrontend : List UserReply := []
  toBackend : List BackendMsg := []
  deriving DecidableEq, Repr

namespace TokenizerMsg

def request? : TokenizerMsg → Option RequestMsg
  | .request msg => some msg
  | .generation _ => none

def generation? : TokenizerMsg → Option GenerationMsg
  | .request _ => none
  | .generation msg => some msg

end TokenizerMsg

namespace RequestMsg

def tokenize? : RequestMsg → Option TokenizeMsg
  | .tokenize msg => some msg
  | .abort _ => none

def abort? : RequestMsg → Option BackendMsg
  | .tokenize _ => none
  | .abort uid => some (.abort uid)

end RequestMsg

namespace GenerationMsg

def isAdmitted : GenerationMsg → Bool
  | .promptAdmitted .. => true
  | _ => false

def isSampled : GenerationMsg → Bool
  | .detokenize .. => true
  | _ => false

def isError : GenerationMsg → Bool
  | .errorReply .. => true
  | _ => false

/-- The reply to a message of the scheduler: `_prompt_admitted_reply`, the sampled reply and
`_error_reply`. -/
def reply : GenerationMsg → UserReply
  | .promptAdmitted uid promptTokens cachedTokens =>
      { uid := uid, finished := false, promptTokensDelta := promptTokens,
        cachedTokens := cachedTokens }
  | .detokenize uid _ finished =>
      { uid := uid, finished := finished, completionTokensDelta := 1 }
  | .errorReply uid error code =>
      { uid := uid, finished := true, error := some error, errorCode := code }

end GenerationMsg

namespace Worker

/-- `_send_generation_replies`. -/
def generationReplies (msgs : List GenerationMsg) : List UserReply :=
  (msgs.filter GenerationMsg.isAdmitted).map GenerationMsg.reply
    ++ (msgs.filter GenerationMsg.isSampled).map GenerationMsg.reply
    ++ (msgs.filter GenerationMsg.isError).map GenerationMsg.reply

/-- `_tokenize_requests` for one message: the terminal error, or the request for the scheduler. -/
def tokenizeOne (tokenizer : Tokenizer) (msg : TokenizeMsg) : Except UserReply BackendMsg :=
  let failed (error : String) : UserReply :=
    { uid := msg.uid, finished := true, error := some error }
  match tokenizer msg.text with
  | .error exc => .error (failed ("could not encode request: " ++ exc))
  | .ok [] => .error (failed "prompt must contain at least one token")
  | .ok tokens => .ok (.user msg.uid tokens msg.maxTokens)

def tokenizeError (tokenizer : Tokenizer) (msg : TokenizeMsg) : Option UserReply :=
  match tokenizeOne tokenizer msg with
  | .error reply => some reply
  | .ok _ => none

def tokenizeRequest (tokenizer : Tokenizer) (msg : TokenizeMsg) : Option BackendMsg :=
  match tokenizeOne tokenizer msg with
  | .error _ => none
  | .ok request => some request

/-- The next message of a queue is taken. -/
def takeFrontend (w : Worker) : Option Worker :=
  match w.fromFrontend with
  | [] => none
  | msg :: rest =>
      some { w with fromFrontend := rest, pendingMsg := w.pendingMsg ++ [.request msg] }

def takeScheduler (w : Worker) : Option Worker :=
  match w.fromScheduler with
  | [] => none
  | msg :: rest =>
      some { w with fromScheduler := rest, pendingMsg := w.pendingMsg ++ [.generation msg] }

/-- The messages of this turn that the frontend, and that the scheduler sent. -/
def requests (w : Worker) : List RequestMsg := w.pendingMsg.filterMap TokenizerMsg.request?

def generation (w : Worker) : List GenerationMsg :=
  w.pendingMsg.filterMap TokenizerMsg.generation?

/-- What a turn does with the messages it has taken. -/
def process (tokenizer : Tokenizer) (w : Worker) : Worker :=
  let prompts := w.requests.filterMap RequestMsg.tokenize?
  { w with
    pendingMsg := []
    -- the replies of this turn are regrouped, then come the prompts that could not be encoded
    toFrontend := w.toFrontend ++ generationReplies w.generation
      ++ prompts.filterMap (tokenizeError tokenizer)
    -- the prompts of a turn overtake its aborts
    toBackend := w.toBackend ++ prompts.filterMap (tokenizeRequest tokenizer)
      ++ w.requests.filterMap RequestMsg.abort? }

end Worker

end FreeToken
