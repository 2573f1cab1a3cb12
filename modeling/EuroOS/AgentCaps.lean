import EuroOS.TextFields

/-!
# Capabilities of agents

A set of capabilities is a 64-bit mask, and each capability has a name in agent
manifests.
-/

namespace EuroOS.Agent

theorem or_and_distrib (a b c : UInt64) : (a ||| b) &&& c = (a &&& c) ||| (b &&& c) := by
  apply UInt64.toBitVec_inj.mp
  simp [BitVec.and_or_distrib_right]

namespace Cap

def fsRead : UInt64 := 1 <<< (0 : UInt64)
def fsWrite : UInt64 := 1 <<< (1 : UInt64)
def fsReadGlobal : UInt64 := 1 <<< (2 : UInt64)
def vaultRead : UInt64 := 1 <<< (3 : UInt64)
def vaultWrite : UInt64 := 1 <<< (4 : UInt64)
def netGet : UInt64 := 1 <<< (8 : UInt64)
def netPost : UInt64 := 1 <<< (9 : UInt64)
def netListen : UInt64 := 1 <<< (10 : UInt64)
def mic : UInt64 := 1 <<< (16 : UInt64)
def camera : UInt64 := 1 <<< (17 : UInt64)
def speaker : UInt64 := 1 <<< (18 : UInt64)
def display : UInt64 := 1 <<< (24 : UInt64)
def calendar : UInt64 := 1 <<< (25 : UInt64)
def exec : UInt64 := 1 <<< (26 : UInt64)
def agentSpawn : UInt64 := 1 <<< (27 : UInt64)
def ipcSend : UInt64 := 1 <<< (28 : UInt64)

def allBits : List UInt64 :=
  [fsRead, fsWrite, fsReadGlobal, vaultRead, vaultWrite, netGet, netPost, netListen, mic, camera,
    speaker, display, calendar, exec, agentSpawn]

def elevatedCaps : List UInt64 := [exec, vaultWrite, fsReadGlobal, agentSpawn, netListen]

def elevated : UInt64 := exec ||| vaultWrite ||| fsReadGlobal ||| agentSpawn ||| netListen

def names : List (Str × UInt64) :=
  [("CAP_AGENT_FS_READ".toList, fsRead), ("CAP_AGENT_FS_WRITE".toList, fsWrite),
    ("CAP_AGENT_FS_READ_GLOBAL".toList, fsReadGlobal), ("CAP_AGENT_VAULT_READ".toList, vaultRead),
    ("CAP_AGENT_VAULT_WRITE".toList, vaultWrite), ("CAP_AGENT_NET_GET".toList, netGet),
    ("CAP_AGENT_NET_POST".toList, netPost), ("CAP_AGENT_NET_LISTEN".toList, netListen),
    ("CAP_AGENT_MIC".toList, mic), ("CAP_AGENT_CAMERA".toList, camera),
    ("CAP_AGENT_SPEAKER".toList, speaker), ("CAP_AGENT_DISPLAY".toList, display),
    ("CAP_AGENT_CALENDAR".toList, calendar), ("CAP_AGENT_EXEC".toList, exec),
    ("CAP_AGENT_SPAWN".toList, agentSpawn), ("CAP_AGENT_IPC_SEND".toList, ipcSend)]

def fromName (name : Str) : Option UInt64 :=
  if Str.trim name = "CAP_AGENT_NET".toList then some netGet
  else (names.find? (·.1 = Str.trim name)).map (·.2)

def toName (bit : UInt64) : Str :=
  ((names.find? (·.2 = bit)).map (·.1)).getD "CAP_AGENT_UNKNOWN".toList

end Cap

structure AgentCaps where
  bits : UInt64
  deriving DecidableEq

namespace AgentCaps

def empty : AgentCaps := ⟨0⟩

def contains (c : AgentCaps) (bits : UInt64) : Bool := c.bits &&& bits = bits

def insert (c : AgentCaps) (bits : UInt64) : AgentCaps := ⟨c.bits ||| bits⟩

end AgentCaps

end EuroOS.Agent
