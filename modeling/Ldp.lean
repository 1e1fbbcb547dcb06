import Ldp.Framework.Run
import Ldp.Framework.Counting
import Ldp.Framework.BoundedBuffer
import Ldp.Framework.Progress
import Ldp.Framework.Rest
import Ldp.Framework.Simulation
import Ldp.Framework.Parts
import Ldp.Framework.Channel
import Ldp.Framework.NoisyChannel
import Ldp.Framework.SharedLog
import Ldp.Framework.Framing
import Ldp.Framework.Lines
import Ldp.Framework.OnesComplement
import Ldp.Framework.Burst
import Ldp.Framework.Layout
import Ldp.Bytes
import Ldp.Serialization
import Ldp.Packet
import Ldp.Endpoint
import Ldp.Process
import Ldp.Chatter
import Ldp.Chat
import Ldp.NoisyChat
import Ldp.Session
import Ldp.Console
import Ldp.Proof.Checksum
import Ldp.Proof.InternetChecksum
import Ldp.Proof.Codec
import Ldp.Proof.Detection
import Ldp.Proof.ByteOrder
import Ldp.Proof.Canonical
import Ldp.Proof.Segments
import Ldp.Proof.Steps
import Ldp.Proof.Queues
import Ldp.Proof.Callers
import Ldp.Proof.Window
import Ldp.Proof.Deadlock
import Ldp.Proof.Memory
import Ldp.Proof.Leakage
import Ldp.Proof.MessageQueue
import Ldp.Proof.Datagrams
import Ldp.Proof.Corruption
import Ldp.Proof.Addressing
import Ldp.Proof.Network
import Ldp.Proof.Delivery
import Ldp.Proof.StandardInput
import Ldp.Proof.Work
import Ldp.Proof.Completion
import Ldp.Proof.NulBytes
import Ldp.Proof.Quiescence
import Ldp.Proof.Transmission
import Ldp.Proof.Atomic
import Ldp.Proof.Atomicity
import Ldp.Proof.AtomicChat
import Ldp.Proof.Noise
import Ldp.Proof.Burst
import Ldp.Proof.Process
import Ldp.Proof.Serialization
import Ldp.Proof.Duplex
import Ldp.Proof.Console
