import DioMonitor.Utils.Config

/-!
# Redirected ports

`LibvirtClient::openNat` runs `iptables` twice, to redirect a port of the host to a port of a VM: for the
connections that come from outside and for those that the host opens itself. What `iptables` makes of
a command is a parameter.
-/

/-- The chains that `openNat` inserts rules into. -/
inductive Chain where
  | PREROUTING | OUTPUT
  deriving DecidableEq, Repr

def Chain.name : Chain → Str
  | PREROUTING => "PREROUTING".toList
  | OUTPUT => "OUTPUT".toList

/-- `iptables`: the tables after a command, and where a chain sends the connections to a port. -/
structure Iptables (τ : Type) where
  run : τ → List Str → τ
  target : τ → Chain → ℤ → Option Str

namespace LibvirtClient

/-- The argument of `--to`. -/
def natTarget (ip : Str) (guest : ℤ) : Str := ip ++ ':' :: Config.showInt guest

/-- The arguments of `iptables` for a chain. -/
def natCommand (chain : Chain) (ip : Str) (host guest : ℤ) : List Str :=
  ["-t".toList, "nat".toList, "-I".toList, chain.name, "-p".toList, "tcp".toList, "--dport".toList,
    Config.showInt host, "-j".toList, "DNAT".toList, "--to".toList, natTarget ip guest]

/-- The tables after the two commands of `openNat`. -/
def runNat {τ : Type} (iptables : Iptables τ) (tables : τ) : Str × ℤ × ℤ → τ
  | (ip, host, guest) =>
    let tables := iptables.run tables (natCommand .PREROUTING ip host guest)
    iptables.run tables (natCommand .OUTPUT ip host guest)

/-- The tables after all the calls of `openNat` for a list of redirections. -/
def runNats {τ : Type} (iptables : Iptables τ) (tables : τ) (nat : List (Str × ℤ × ℤ)) : τ :=
  nat.foldl (runNat iptables) tables

end LibvirtClient

/-- A port that a connection can be opened to. -/
def IsPort (port : ℤ) : Prop := 0 < port ∧ port < 2 ^ 16

/-- What is documented of `iptables -I` with a rule for one port: the rule goes in front of the others of
its chain, where the first rule for a port decides, and a rule that is refused changes nothing. -/
structure Iptables.Documented {τ : Type} (iptables : Iptables τ) (Address : Str → Prop) : Prop where
  inserted : ∀ tables chain ip host guest, Address ip → IsPort host → IsPort guest →
    iptables.target (iptables.run tables (LibvirtClient.natCommand chain ip host guest)) chain host =
      some (LibvirtClient.natTarget ip guest)
  others : ∀ tables chain ip host guest chain' port, chain' ≠ chain ∨ port ≠ host →
    iptables.target (iptables.run tables (LibvirtClient.natCommand chain ip host guest)) chain' port =
      iptables.target tables chain' port
