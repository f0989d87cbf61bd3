/-! # Networks

Keys, addresses and transactions belong to the main network or to the test network. The network
decides the version byte in front of an address or an exported key.
-/

namespace Bitcoin

/-- The network a key, address or transaction belongs to. -/
inductive Network where
  /-- The main network. -/
  | mainnet
  /-- The test network. -/
  | testnet
  deriving Repr, DecidableEq, Inhabited

namespace Network

def p2pkhPrefix : Network → UInt8
  | mainnet => 0x00
  | testnet => 0x6f

def p2shPrefix : Network → UInt8
  | mainnet => 0x05
  | testnet => 0xc4

def wifPrefix : Network → UInt8
  | mainnet => 0x80
  | testnet => 0xef

/-- The network's name, capitalised, as error texts show it. -/
def title : Network → String
  | mainnet => "Mainnet"
  | testnet => "Testnet"

end Network

end Bitcoin
