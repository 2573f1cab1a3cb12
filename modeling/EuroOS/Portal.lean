import EuroOS.TextFields
import EuroOS.CallMachine

/-!
# The permission portal

Applications request resources, the user answers prompts, and a check at the
moment of use consults the recorded grants.  Remembered grants and refusals are
written to a text with one line for each and read back after a restart.
-/

namespace EuroOS.Portal

inductive Resource
  | fileRead (path : Str)
  | fileWrite (path : Str)
  | camera
  | microphone
  | location
  | screenCapture
  | clipboardRead
  | network (host : Str)
  | notifications
  deriving DecidableEq

inductive ResourceKind
  | fileRead
  | fileWrite
  | camera
  | microphone
  | location
  | screenCapture
  | clipboardRead
  | network
  | notifications
  deriving DecidableEq

def Resource.kind : Resource → ResourceKind
  | .fileRead _ => .fileRead
  | .fileWrite _ => .fileWrite
  | .camera => .camera
  | .microphone => .microphone
  | .location => .location
  | .screenCapture => .screenCapture
  | .clipboardRead => .clipboardRead
  | .network _ => .network
  | .notifications => .notifications

inductive Scope
  | once
  | session
  | persistent
  deriving DecidableEq

inductive Decision
  | allow
  | deny
  | ask
  deriving DecidableEq

inductive Outcome
  | granted
  | denied
  | prompt (id : Nat)
  deriving DecidableEq

structure Grant where
  app : Str
  resource : Resource
  scope : Scope
  deriving DecidableEq

structure Pending where
  id : Nat
  app : Str
  resource : Resource
  deriving DecidableEq

structure AuditEntry where
  app : Str
  resource : Resource
  decision : Decision
  allowed : Bool
  deriving DecidableEq

def defaultDecision : ResourceKind → Decision
  | .notifications | .clipboardRead => .allow
  | .camera | .microphone | .location | .screenCapture | .fileRead | .fileWrite | .network => .ask

/-- The 64-bit prompt counter is bounded by the audit trail in memory, so it never overflows. -/
structure Broker where
  grants : List Grant
  rules : List (Str × ResourceKind × Decision)
  pending : List Pending
  audit : List AuditEntry
  nextPrompt : Nat
  deriving DecidableEq

def encodeKind : ResourceKind → Str
  | .fileRead => "file_read".toList
  | .fileWrite => "file_write".toList
  | .camera => "camera".toList
  | .microphone => "microphone".toList
  | .location => "location".toList
  | .screenCapture => "screen".toList
  | .clipboardRead => "clipboard".toList
  | .network => "network".toList
  | .notifications => "notifications".toList

def decodeKind (s : Str) : Option ResourceKind :=
  if s = "file_read".toList then some .fileRead
  else if s = "file_write".toList then some .fileWrite
  else if s = "camera".toList then some .camera
  else if s = "microphone".toList then some .microphone
  else if s = "location".toList then some .location
  else if s = "screen".toList then some .screenCapture
  else if s = "clipboard".toList then some .clipboardRead
  else if s = "network".toList then some .network
  else if s = "notifications".toList then some .notifications
  else none

def encodeResource : Resource → Str
  | .fileRead p => "file_read:".toList ++ p
  | .fileWrite p => "file_write:".toList ++ p
  | .network h => "network:".toList ++ h
  | .camera => "camera".toList
  | .microphone => "microphone".toList
  | .location => "location".toList
  | .screenCapture => "screen".toList
  | .clipboardRead => "clipboard".toList
  | .notifications => "notifications".toList

def decodeResource (s : Str) : Option Resource :=
  match Str.afterStart "file_read:".toList s with
  | some p => some (.fileRead p)
  | none =>
  match Str.afterStart "file_write:".toList s with
  | some p => some (.fileWrite p)
  | none =>
  match Str.afterStart "network:".toList s with
  | some h => some (.network h)
  | none =>
  if s = "camera".toList then some .camera
  else if s = "microphone".toList then some .microphone
  else if s = "location".toList then some .location
  else if s = "screen".toList then some .screenCapture
  else if s = "clipboard".toList then some .clipboardRead
  else if s = "notifications".toList then some .notifications
  else none

/-- Where the last record of an application and a resource stands in the trail. -/
def lastRecord (audit : List AuditEntry) (app : Str) (resource : Resource) : Option Nat :=
  (audit.reverse.findIdx? fun e => e.app = app && e.resource = resource).map
    (audit.length - 1 - ·)

namespace Broker

def new : Broker := ⟨[], [], [], [], 1⟩

def setRule (b : Broker) (app : Str) (kind : ResourceKind) (decision : Decision) : Broker :=
  { b with rules := b.rules.filter (fun r => !(r.1 = app && r.2.1 = kind)) ++ [(app, kind, decision)] }

def ruleFor (b : Broker) (app : Str) (kind : ResourceKind) : Option Decision :=
  (b.rules.find? fun r => r.1 = app && r.2.1 = kind).map (·.2.2)

def decision (b : Broker) (app : Str) (resource : Resource) : Decision :=
  (b.ruleFor app resource.kind).getD (defaultDecision resource.kind)

def hasGrant (b : Broker) (app : Str) (resource : Resource) : Bool :=
  b.grants.any fun g => g.app = app && g.resource = resource

def request (b : Broker) (app : Str) (resource : Resource) : Broker × Outcome :=
  if b.hasGrant app resource then
    ({ b with audit := b.audit ++ [⟨app, resource, .allow, true⟩] }, .granted)
  else
    match b.decision app resource with
    | .allow => ({ b with audit := b.audit ++ [⟨app, resource, .allow, true⟩] }, .granted)
    | .deny => ({ b with audit := b.audit ++ [⟨app, resource, .deny, false⟩] }, .denied)
    | .ask =>
      let id := b.nextPrompt
      ({ b with
          nextPrompt := b.nextPrompt + 1
          pending := b.pending ++ [⟨id, app, resource⟩]
          audit := b.audit ++ [⟨app, resource, .ask, false⟩] }, .prompt id)

/-- The trail with the answer in the last record of the application and the resource. -/
def patched (b : Broker) (app : Str) (resource : Resource) (allow : Bool) : List AuditEntry :=
  match lastRecord b.audit app resource with
  | none => b.audit
  | some i => b.audit.modify i ({ · with allowed := allow })

def respond (b : Broker) (prompt : Nat) (allow : Bool) (scope : Scope) : Broker × Bool :=
  match b.pending.find? (·.id = prompt) with
  | none => (b, false)
  | some p =>
    let b := { b with
      pending := b.pending.eraseP (·.id = prompt)
      audit := b.patched p.app p.resource allow }
    if allow then ({ b with grants := b.grants ++ [⟨p.app, p.resource, scope⟩] }, true)
    -- A refusal for good is remembered as a rule for the whole kind.
    else if scope = .persistent then (b.setRule p.app p.resource.kind .deny, false)
    else (b, false)

/-- Enforcement at the moment of use; a grant for one use is consumed. -/
def check (b : Broker) (app : Str) (resource : Resource) : Broker × Bool :=
  match b.grants.findIdx? (fun g => g.app = app && g.resource = resource) with
  | some pos =>
    if (b.grants[pos]?).map (·.scope) = some .once then
      ({ b with grants := b.grants.eraseIdx pos }, true)
    else (b, true)
  | none => (b, b.decision app resource = .allow)

def endSession (b : Broker) : Broker := { b with grants := b.grants.filter (·.scope ≠ .session) }

def revokeAll (b : Broker) (app : Str) : Broker := { b with grants := b.grants.filter (·.app ≠ app) }

def grantLine (g : Grant) : Str :=
  "grant".toList ++ '\t' :: (g.app ++ '\t' :: encodeResource g.resource)

def denyLine (app : Str) (kind : ResourceKind) : Str :=
  "deny".toList ++ '\t' :: (app ++ '\t' :: encodeKind kind)

def persistentLines (b : Broker) : List Str :=
  (b.grants.filter (·.scope = .persistent)).map grantLine ++
    (b.rules.filter (·.2.2 = .deny)).map fun r => denyLine r.1 r.2.1

def serializePersistent (b : Broker) : Str := b.persistentLines.flatMap (· ++ ['\n'])

def loadLine (b : Broker) (line : Str) : Broker :=
  match line.splitOn '\t' with
  | [tag, app, value] =>
    if tag = "grant".toList then
      match decodeResource value with
      | some r => { b with grants := b.grants ++ [⟨app, r, .persistent⟩] }
      | none => b
    else if tag = "deny".toList then
      match decodeKind value with
      | some k => b.setRule app k .deny
      | none => b
    else b
  | _ => b

def loadPersistent (b : Broker) (blob : Str) : Broker := (Str.lines blob).foldl loadLine b

end Broker

inductive Call
  | request (app : Str) (resource : Resource)
  | respond (prompt : Nat) (allow : Bool) (scope : Scope)
  | check (app : Str) (resource : Resource)
  | setRule (app : Str) (kind : ResourceKind) (decision : Decision)
  | revokeAll (app : Str)
  | endSession
  deriving DecidableEq

inductive Result
  | outcome (o : Outcome)
  | answer (b : Bool)
  | done
  deriving DecidableEq

def machine : CallMachine Broker Call Result where
  step b
    | .request app resource => ((b.request app resource).1, .outcome (b.request app resource).2)
    | .respond prompt allow scope =>
      ((b.respond prompt allow scope).1, .answer (b.respond prompt allow scope).2)
    | .check app resource => ((b.check app resource).1, .answer (b.check app resource).2)
    | .setRule app kind decision => (b.setRule app kind decision, .done)
    | .revokeAll app => (b.revokeAll app, .done)
    | .endSession => (b.endSession, .done)

end EuroOS.Portal
